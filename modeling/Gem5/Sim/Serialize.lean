import Gem5.Base.IniFile

namespace Gem5.Sim

open Lib Base List Option Function Numeral IniFile

/-! Checkpoint parameters: how each type of value is written into a section, and read back. -/

inductive IntType
  | char | signedChar | unsignedChar | short | unsignedShort | int | unsignedInt | long
  | unsignedLong | longLong | unsignedLongLong
deriving DecidableEq

namespace IntType

def isSigned : IntType → Bool
  | unsignedChar | unsignedShort | unsignedInt | unsignedLong | unsignedLongLong => false
  | _ => true

def bits : IntType → Nat
  | char | signedChar | unsignedChar => 8
  | short | unsignedShort => 16
  | int | unsignedInt => 32
  | _ => 64

def min (t : IntType) : Int := if t.isSigned then -2 ^ (t.bits - 1) else 0

def max (t : IntType) : Int := if t.isSigned then 2 ^ (t.bits - 1) - 1 else 2 ^ t.bits - 1

abbrev Val (t : IntType) : Type := {n : Int // t.min ≤ n ∧ n ≤ t.max}

end IntType

/-- `std::stoll`, with the base taken from the text; `none` is an exception. -/
def stoll (s : Text) : Option Int := do
  let (negative, n) ← Numeral.read s
  let r : Int := if negative then -n else n
  if -2 ^ 63 ≤ r ∧ r < 2 ^ 63 then some r else none

/-- `std::stoull`: a number with a minus sign wraps round. -/
def stoull (s : Text) : Option Int := do
  let (negative, n) ← Numeral.read s
  if n < 2 ^ 64 then some (if negative then (-n : Int) % 2 ^ 64 else n) else none

def toNumber (t : IntType) (value : Text) : Option t.Val :=
  (if t.isSigned then stoll value else stoull value).bind (fun r =>
    if h : t.min ≤ r ∧ r ≤ t.max then some ⟨r, h⟩ else none)

def toBool (value : Text) : Option Bool :=
  let s := value.map Char.toLower
  if s = "true".toList then some true else if s = "false".toList then some false else none

/-- The types of single values; those for floating point are left out. -/
inductive ScalarType
  | int (t : IntType) | bool | string
deriving DecidableEq

namespace ScalarType

@[reducible] def Val : ScalarType → Type
  | int t => t.Val
  | bool => Bool
  | string => Text

instance : (t : ScalarType) → LinearOrder t.Val
  | int _ => @Subtype.instLinearOrder Int Int.instLinearOrder _
  | bool => inferInstanceAs (LinearOrder Bool)
  | string => inferInstanceAs (LinearOrder (List Char))

end ScalarType

def showParam : (t : ScalarType) → t.Val → Text
  | .int _, value => Numeral.decimal value.1
  | .bool, value => if value then "true".toList else "false".toList
  | .string, value => value

def parseParam : (t : ScalarType) → Text → Option t.Val
  | .int t, s => toNumber t s
  | .bool, s => toBool s
  | .string, s => some s

def paramOut (name : Text) (t : ScalarType) (param : t.Val) : Text :=
  name ++ '=' :: showParam t param ++ ['\n']

def showRest (t : ScalarType) : List t.Val → Text
  | [] => []
  | x :: param => ' ' :: showParam t x ++ showRest t param

/-- A vector or a C array. -/
def arrayParamOut (name : Text) (t : ScalarType) (param : List t.Val) : Text :=
  match param with
  | [] => name ++ '=' :: ['\n']
  | x :: rest => name ++ '=' :: showParam t x ++ showRest t rest ++ ['\n']

/-- A list or a set, by its iterator. The iterator is moved on once before the loop, and for an
empty container it is at the end already. -/
def iteratorParamOut (name : Text) (t : ScalarType) (param : List t.Val) : Except TextFault Text :=
  match param with
  | [] => .error .undefinedBehaviour
  | x :: rest => .ok (name ++ '=' :: showParam t x ++ showRest t rest ++ ['\n'])

def cantUnserialize (section_ name : Text) : TextFault :=
  .fatal ("Can't unserialize '".toList ++ section_ ++ ':' :: name ++ "'\n".toList)

def findParam (cp : IniFile) (section_ name : Text) : Except TextFault Text :=
  match cp.find section_ name with
  | some str => .ok str
  | none => .error (cantUnserialize section_ name)

def paramIn (cp : IniFile) (section_ name : Text) (t : ScalarType) : Except TextFault t.Val := do
  let str ← findParam cp section_ name
  match parseParam t str with
  | some param => .ok param
  | none => .error (cantUnserialize section_ name)

/-- The elements of a vector, a list or a set, or of a C array, once their number has been
checked. -/
def parseTokens (t : ScalarType) (str : Text) (tokens : List Text) :
    Except TextFault (List t.Val) :=
  match tokens.mapM (parseParam t) with
  | some param => .ok param
  | none => .error (.fatal ("could not parse \"".toList ++ str ++ "\"".toList))

def arrayParamIn (cp : IniFile) (section_ name : Text) (t : ScalarType) :
    Except TextFault (List t.Val) := do
  let str ← findParam cp section_ name
  parseTokens t str (tokenize ' ' true str)

def arrayParamInSized (cp : IniFile) (section_ name : Text) (t : ScalarType) (size : Nat) :
    Except TextFault (List t.Val) := do
  let str ← findParam cp section_ name
  if (tokenize ' ' true str).length ≠ size then
    .error (.fatal ("Array size mismatch on ".toList ++ section_ ++ ':' :: name ++ "'\n".toList))
  else parseTokens t str (tokenize ' ' true str)

inductive ParamType
  | scalar (t : ScalarType) | vector (t : ScalarType) | list (t : ScalarType) | set (t : ScalarType)
  | array (t : ScalarType) (size : Nat)

@[reducible] def ParamType.Val : ParamType → Type
  | scalar t => t.Val
  | vector t | list t => List t.Val
  | set t => Finset t.Val
  | array t size => List.Vector t.Val size

structure Param where
  name : Text
  type : ParamType
  value : type.Val

/-- A set is gone through in its order. -/
def Param.out : Param → Except TextFault Text
  | ⟨name, .scalar t, value⟩ => .ok (paramOut name t value)
  | ⟨name, .vector t, value⟩ => .ok (arrayParamOut name t value)
  | ⟨name, .list t, value⟩ => iteratorParamOut name t value
  | ⟨name, .set t, value⟩ => iteratorParamOut name t (value.sort (· ≤ ·))
  | ⟨name, .array t _, value⟩ => .ok (arrayParamOut name t value.toList)

def ParamType.paramIn (cp : IniFile) (section_ name : Text) : (type : ParamType) →
    Except TextFault type.Val
  | .scalar t => Sim.paramIn cp section_ name t
  | .vector t | .list t => arrayParamIn cp section_ name t
  | .set t => do
    let param ← arrayParamIn cp section_ name t
    .ok (param.foldl (fun s x => insert x s) ∅)
  | .array t size => do
    let param ← arrayParamInSized cp section_ name t size
    if h : param.length = size then .ok ⟨param, h⟩ else .error .undefinedBehaviour

def serializeSection (section_ : Text) (params : List Param) : Except TextFault Text := do
  let lines ← params.mapM Param.out
  .ok ("\n[".toList ++ section_ ++ "]\n".toList ++ lines.flatten)

/-- A value that can stand alone on a line. -/
def ScalarType.Plain : (t : ScalarType) → t.Val → Prop
  | .string, s => Trimmed s ∧ '\n' ∉ s
  | _, _ => True

/-- A value that can be an element. -/
def ScalarType.Separate : (t : ScalarType) → t.Val → Prop
  | .string, s => IsField ' ' s ∧ '\n' ∉ s
  | _, _ => True

def Param.Fits : Param → Prop
  | ⟨_, .scalar t, value⟩ => t.Plain value
  | ⟨_, .vector t, value⟩ | ⟨_, .list t, value⟩ => ∀ x ∈ value, t.Separate x
  | ⟨_, .set t, value⟩ => ∀ x ∈ value, t.Separate x
  | ⟨_, .array t _, value⟩ => ∀ x ∈ value.toList, t.Separate x

/-- An iterator of the value is at the end from the start. -/
def Param.AtEnd : Param → Prop
  | ⟨_, .list _, value⟩ => value = []
  | ⟨_, .set _, value⟩ => value = ∅
  | _ => False

section Scalars

theorem stoll_decimal (h : -2 ^ 63 ≤ n ∧ n < 2 ^ 63) : stoll (decimal n) = some n := by
  have hn : (if decide (n < 0) = true then -(n.natAbs : Int) else n.natAbs) = n := by
    split <;> rename_i hneg <;> simp only [decide_eq_true_eq] at hneg <;> omega
  simp only [stoll, read_decimal, bind_eq_bind, bind_some, hn, if_pos h]

theorem stoull_decimal (h : 0 ≤ n ∧ n < 2 ^ 64) : stoull (decimal n) = some n := by
  have hneg : decide (n < 0) = false := by simpa using h.1
  have hlt : n.natAbs < 2 ^ 64 := by omega
  simp only [stoull, read_decimal, bind_eq_bind, bind_some, hneg, if_pos hlt]
  simpa using h.1

theorem toNumber_decimal (t : IntType) (n : t.Val) : toNumber t (decimal n.1) = some n := by
  obtain ⟨n, hmin, hmax⟩ := n
  have hr : (if t.isSigned then stoll (decimal n) else stoull (decimal n)) = some n := by
    split_ifs with hsigned
    · apply stoll_decimal
      cases t <;> simp_all [IntType.min, IntType.max, IntType.bits, IntType.isSigned] <;> omega
    · apply stoull_decimal
      cases t <;> simp_all [IntType.min, IntType.max, IntType.bits, IntType.isSigned] <;> omega
  rw [toNumber, hr, bind_some, dif_pos ⟨hmin, hmax⟩]

theorem parseParam_showParam (t : ScalarType) (x : t.Val) :
    parseParam t (showParam t x) = some x := by
  cases t with
  | int t => exact toNumber_decimal t x
  | bool => cases x <;> decide
  | string => rfl

theorem ScalarType.Separate.showParam (h : t.Separate x) :
    IsField ' ' (showParam t x) ∧ '\n' ∉ Sim.showParam t x := by
  cases t with
  | int t =>
    refine ⟨⟨decimal_ne_nil _, fun c hc heq => ?_⟩, fun hc => ?_⟩
    · cases (heq ▸ isSpace_decimal hc)
    · cases isSpace_decimal hc
  | bool => cases x <;> simp [Base.IsField, Sim.showParam]
  | string => exact h

theorem ScalarType.Plain.showParam (h : t.Plain x) :
    Trimmed (showParam t x) ∧ '\n' ∉ Sim.showParam t x := by
  cases t with
  | string => exact h
  | int t =>
    have hfield := (show ScalarType.Separate (.int t) x from trivial).showParam
    exact ⟨.of_forall_ne hfield.1.2, hfield.2⟩
  | bool =>
    have hfield := (show ScalarType.Separate .bool x from trivial).showParam
    exact ⟨.of_forall_ne hfield.1.2, hfield.2⟩

end Scalars

section Elements

variable {t : ScalarType}

def showElems (t : ScalarType) : List t.Val → Text
  | [] => []
  | x :: rest => showParam t x ++ showRest t rest

theorem showRest_eq (l : List t.Val) : showRest t l = (l.map (showParam t)).flatMap (' ' :: ·) := by
  induction l with
  | nil => rfl
  | cons x l ih => simp [showRest, ih]

theorem fields_of_separate {l : List t.Val} (h : ∀ x ∈ l, t.Separate x) :
    ∀ s ∈ l.map (showParam t), IsField ' ' s := by
  intro s hs
  obtain ⟨x, hx, rfl⟩ := mem_map.mp hs
  exact (h x hx).showParam.1

theorem tokenize_showElems {l : List t.Val} (h : ∀ x ∈ l, t.Separate x) :
    tokenize ' ' true (showElems t l) = l.map (showParam t) := by
  cases l with
  | nil => rfl
  | cons x l =>
    have hfields := fields_of_separate h
    rw [map_cons, forall_mem_cons] at hfields
    rw [showElems, showRest_eq, tokenize_fields hfields.1 hfields.2, map_cons]

theorem parseTokens_showElems (l : List t.Val) (str : Text) :
    parseTokens t str (l.map (showParam t)) = .ok l := by
  have hparse : (l.map (showParam t)).mapM (parseParam t) = some l := by
    induction l with
    | nil => rfl
    | cons x l ih => rw [map_cons, mapM_cons, ih, parseParam_showParam]; rfl
  rw [parseTokens, hparse]

theorem newline_notMem_showElems (h : ∀ x ∈ l, t.Separate x) : '\n' ∉ showElems t l := by
  cases l with
  | nil => exact not_mem_nil
  | cons x l =>
    intro hmem
    rw [showElems, showRest_eq, mem_append] at hmem
    rcases hmem with hmem | hmem
    · exact (h x mem_cons_self).showParam.2 hmem
    · obtain ⟨s, hs, hmem⟩ := mem_flatMap.mp hmem
      obtain ⟨y, hy, rfl⟩ := mem_map.mp hs
      rcases mem_cons.mp hmem with hmem | hmem
      · cases hmem
      · exact (h y (.tail _ hy)).showParam.2 hmem

theorem trimmed_showElems {l : List t.Val} (h : ∀ x ∈ l, t.Separate x) :
    Trimmed (showElems t l) := by
  cases l with
  | nil => simp [Trimmed, showElems]
  | cons x l =>
    have hfields := fields_of_separate h
    rw [map_cons, forall_mem_cons] at hfields
    rw [showElems, showRest_eq]
    exact .fields hfields.1 hfields.2

end Elements

namespace Param

/-- What is written after the name. -/
def text : Param → Text
  | ⟨_, .scalar t, value⟩ => showParam t value
  | ⟨_, .vector t, value⟩ | ⟨_, .list t, value⟩ => showElems t value
  | ⟨_, .set t, value⟩ => showElems t (value.sort (· ≤ ·))
  | ⟨_, .array t _, value⟩ => showElems t value.toList

def line (p : Param) : Text := p.name ++ '=' :: p.text ++ ['\n']

theorem arrayParamOut_eq (name : Text) (t : ScalarType) (l : List t.Val) :
    arrayParamOut name t l = name ++ '=' :: showElems t l ++ ['\n'] := by
  cases l with
  | nil => simp [arrayParamOut, showElems]
  | cons x l => simp [arrayParamOut, showElems]

theorem iteratorParamOut_eq (name : Text) (t : ScalarType) {l : List t.Val} (h : l ≠ []) :
    iteratorParamOut name t l = .ok (name ++ '=' :: showElems t l ++ ['\n']) := by
  obtain ⟨x, l, rfl⟩ := exists_cons_of_ne_nil h
  simp [iteratorParamOut, showElems]

variable {p : Param}

theorem out_of_not_atEnd (h : ¬p.AtEnd) : p.out = .ok p.line := by
  obtain ⟨name, type, value⟩ := p
  cases type with
  | scalar t => rfl
  | vector t => exact congrArg _ (arrayParamOut_eq ..)
  | array t size => exact congrArg _ (arrayParamOut_eq ..)
  | list t => exact iteratorParamOut_eq name t h
  | set t =>
    apply iteratorParamOut_eq
    intro hnil
    apply h
    rw [← Finset.sort_toFinset value (· ≤ ·), hnil]
    rfl

theorem out_of_atEnd (h : p.AtEnd) : p.out = .error .undefinedBehaviour := by
  obtain ⟨name, type, value⟩ := p
  cases type with
  | list t =>
    obtain rfl : value = [] := h
    rfl
  | set t =>
    obtain rfl : value = ∅ := h
    simp [Param.out, iteratorParamOut]
  | _ => cases h

theorem Fits.text (h : p.Fits) : Trimmed p.text ∧ '\n' ∉ p.text := by
  obtain ⟨name, type, value⟩ := p
  cases type with
  | scalar t => exact ScalarType.Plain.showParam h
  | set t =>
    have hsort : ∀ x ∈ value.sort (· ≤ ·), t.Separate x := fun x hx => h x (by simpa using hx)
    exact ⟨trimmed_showElems hsort, newline_notMem_showElems hsort⟩
  | vector t | list t | array t size => exact ⟨trimmed_showElems h, newline_notMem_showElems h⟩

theorem arrayParamIn_of_find {cp : IniFile} {section_ name : Text} {t : ScalarType} {l : List t.Val}
    (h : ∀ x ∈ l, t.Separate x) (hfind : cp.find section_ name = some (showElems t l)) :
    arrayParamIn cp section_ name t = .ok l := by
  have hparam : findParam cp section_ name = .ok (showElems t l) := by rw [findParam, hfind]
  rw [arrayParamIn, hparam]
  change parseTokens t _ (tokenize ' ' true (showElems t l)) = _
  rw [tokenize_showElems h, parseTokens_showElems]

theorem foldl_insert {α : Type} [DecidableEq α] (l : List α) (s : Finset α) :
    l.foldl (fun s x => insert x s) s = s ∪ l.toFinset := by
  induction l generalizing s with
  | nil => simp
  | cons x l ih => rw [foldl_cons, ih, toFinset_cons, Finset.insert_union, Finset.union_insert]

theorem paramIn_of_find {cp : IniFile} {section_ : Text} (h : p.Fits)
    (hfind : cp.find section_ p.name = some p.text) :
    p.type.paramIn cp section_ p.name = .ok p.value := by
  have hparam : findParam cp section_ p.name = .ok p.text := by rw [findParam, hfind]
  obtain ⟨name, type, value⟩ := p
  cases type with
  | scalar t =>
    change Sim.paramIn cp section_ name t = _
    rw [Sim.paramIn, hparam]
    change (match parseParam t (showParam t value) with | some x => _ | none => _) = _
    rw [parseParam_showParam]
  | vector t => exact arrayParamIn_of_find h hfind
  | list t => exact arrayParamIn_of_find h hfind
  | set t =>
    have hsort : ∀ x ∈ value.sort (· ≤ ·), t.Separate x := fun x hx => h x (by simpa using hx)
    have hinsert : (value.sort (· ≤ ·)).foldl (fun s x => insert x s) ∅ = value := by
      rw [foldl_insert, Finset.empty_union, Finset.sort_toFinset]
    change (arrayParamIn cp section_ name t >>= _) = _
    rw [arrayParamIn_of_find hsort hfind]
    exact congrArg _ hinsert
  | array t size =>
    have hsized : arrayParamInSized cp section_ name t size = .ok value.toList := by
      rw [arrayParamInSized, hparam]
      change (if (tokenize ' ' true (showElems t value.toList)).length ≠ size then _ else
        parseTokens t _ (tokenize ' ' true (showElems t value.toList))) = _
      rw [tokenize_showElems h, if_neg (by simp), parseTokens_showElems]
    change (arrayParamInSized cp section_ name t size >>= _) = _
    rw [hsized]
    exact dif_pos (Vector.toList_length value)

end Param

open Param

section RoundTrip

variable {section_ : Text} {params : List Param}

theorem serializeSection_of_not_atEnd (h : ∀ p ∈ params, ¬p.AtEnd) :
    serializeSection section_ params =
    .ok ("\n[".toList ++ section_ ++ "]\n".toList ++
      assignments (params.map (fun p => (p.name, p.text)))) := by
  have hlines : params.mapM out = .ok (params.map line) := by
    induction params with
    | nil => rfl
    | cons p params ih =>
      rw [mapM_cons, out_of_not_atEnd (h p mem_cons_self), ih (fun q hq => h q (.tail _ hq))]
      rfl
  rw [serializeSection, hlines, assignments, flatMap_map, flatMap_def]
  rfl

theorem serializeSection_of_atEnd (hp : p ∈ params) (h : p.AtEnd) :
    ∀ text, serializeSection section_ params ≠ .ok text := by
  have hlines : ∀ lines, params.mapM out ≠ .ok lines := by
    induction params with
    | nil => cases hp
    | cons q params ih =>
      intro lines heq
      rw [mapM_cons] at heq
      obtain ⟨line, hq, heq⟩ := bind_eq_ok.mp heq
      rcases mem_cons.mp hp with rfl | hp
      · cases (out_of_atEnd h).symm.trans hq
      · obtain ⟨rest, hrest, -⟩ := bind_eq_ok.mp heq
        exact ih hp rest hrest
  intro text heq
  obtain ⟨lines, hmap, -⟩ := bind_eq_ok.mp heq
  exact hlines lines hmap

/-- Every parameter is read back as it has been written, if no name is empty and no list or set
is. -/
theorem checkpoint_round_trip_iff (section_ : Text) (params : List Param)
    (hsection : IniFile.IsSectionName section_) (hnames : (params.map Param.name).Nodup)
    (h : ∀ p ∈ params, IniFile.IsName p.name ∧ p.Fits) :
    (∃ text cp, serializeSection section_ params = .ok text ∧ IniFile.load text = .ok cp ∧
      ∀ p ∈ params, p.type.paramIn cp section_ p.name = .ok p.value) ↔
    ∀ p ∈ params, p.name ≠ [] ∧ ¬p.AtEnd := by
  have hentries : ∀ e ∈ params.map (fun p => (p.name, p.text)), IsEntry e := by
    intro e he
    obtain ⟨p, hp, rfl⟩ := mem_map.mp he
    exact ⟨(h p hp).1, (h p hp).2.text⟩
  constructor
  · rintro ⟨text, cp, htext, hload, -⟩
    have hend : ∀ p ∈ params, ¬p.AtEnd :=
      fun p hp hatEnd => serializeSection_of_atEnd hp hatEnd text htext
    obtain rfl := Except.ok.inj ((serializeSection_of_not_atEnd hend).symm.trans htext)
    rw [load_section hsection hentries] at hload
    split_ifs at hload with hne
    exact fun p hp => ⟨hne (p.name, p.text) (mem_map_of_mem hp), hend p hp⟩
  intro hgood
  have hne : ∀ e ∈ params.map (fun p => (p.name, p.text)), e.1 ≠ [] := by
    intro e he
    obtain ⟨p, hp, rfl⟩ := mem_map.mp he
    exact (hgood p hp).1
  have hload := load_section hsection hentries
  rw [if_pos hne] at hload
  refine ⟨_, _, serializeSection_of_not_atEnd (fun p hp => (hgood p hp).2), hload, fun p hp => ?_⟩
  apply paramIn_of_find (h p hp).2
  rw [find, update_self, bind_some]
  exact enter_of_mem (by simpa [Function.comp_def] using hnames)
    (mem_map_of_mem (f := fun p => (p.name, p.text)) hp) _

/-- A number and a vector without elements in one section. -/
theorem checkpoint_round_trip_two : ∃ text cp, serializeSection "cpu".toList
      [⟨"pc".toList, .scalar (.int .unsignedLong), ⟨2 ^ 64 - 1, by decide⟩⟩,
        ⟨"irqs".toList, .vector .bool, []⟩] = .ok text ∧
      IniFile.load text = .ok cp ∧ (ParamType.vector .bool).paramIn cp "cpu".toList "irqs".toList =
        .ok [] := by
  obtain ⟨text, cp, htext, hload, hread⟩ := (checkpoint_round_trip_iff "cpu".toList
    [⟨"pc".toList, .scalar (.int .unsignedLong), ⟨2 ^ 64 - 1, by decide⟩⟩,
      ⟨"irqs".toList, .vector .bool, []⟩]
    (by simp [IsSectionName, Trimmed]) (by simp)
    (by simp [IsName, isSpace, Fits, ScalarType.Plain])).mpr (by simp [AtEnd])
  exact ⟨text, cp, htext, hload, hread _ (mem_cons_of_mem _ mem_cons_self)⟩

/-- An empty list and an empty set cannot be written. -/
theorem empty_container_undefined :
    serializeSection "cpu".toList [⟨"regs".toList, .list (.int .int), []⟩] =
      .error .undefinedBehaviour ∧
    serializeSection "cpu".toList [⟨"tags".toList, .set .string, ∅⟩] =
      .error .undefinedBehaviour := by
  constructor
  · rfl
  · simp [serializeSection, out, iteratorParamOut]

end RoundTrip

end Gem5.Sim
