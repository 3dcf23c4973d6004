import Gem5.Lib.Numeral
import Gem5.Lib.Outcome

namespace Gem5.Base

open Lib List Function

/-! The text of checkpoints and configurations: sections of assignments, one to a line. -/

abbrev Text := List Char

inductive TextFault
  | undefinedBehaviour
  | cantParse (assignment : Text)
  | fatal (message : Text)
deriving DecidableEq

def eatLeadWhite (s : Text) : Text :=
  match s.dropWhile (· = ' ') with
  | [] => s
  | s' => s'

def eatEndWhite (s : Text) : Text :=
  match s.rdropWhile (· = ' ') with
  | [] => s
  | s' => s'

def eatWhite (s : Text) : Text := eatEndWhite (eatLeadWhite s)

theorem length_afterNewline_lt {c : Char} {s s' : Text} {p : Char → Bool}
    (h : s.dropWhile p = c :: s') (q : Char → Bool) :
    (((c :: s').dropWhile q).drop 1).length < s.length := by
  have hle : (s.dropWhile p).length ≤ s.length := length_dropWhile_le p s
  have hle' : ((c :: s').dropWhile q).length ≤ (c :: s').length := length_dropWhile_le q _
  rw [h] at hle
  simp only [length_cons] at hle hle'
  simp only [length_drop]
  omega

def tokenizeFrom (token : Char) (ignore : Bool) (s : Text) : List Text :=
  match _h : s.dropWhile (· ≠ token) with
  | [] => [s]
  | _ :: rest =>
    s.takeWhile (· ≠ token) ::
      if ignore then
        match _h' : rest.dropWhile (· = token) with
        | [] => []
        | c :: rest' => tokenizeFrom token ignore (c :: rest')
      else tokenizeFrom token ignore rest
termination_by s.length
decreasing_by
  all_goals
    have hle := List.length_dropWhile_le (· ≠ token) s
    rw [_h] at hle
    simp only [List.length_cons] at hle
  · have hle' := List.length_dropWhile_le (· = token) rest
    rw [_h'] at hle'
    omega
  · omega

def tokenize (token : Char) (ignore : Bool) (s : Text) : List Text :=
  if s = [] then []
  else if ignore ∧ s.head? = some token then
    match s.dropWhile (· = token) with
    | [] => []
    | c :: rest => tokenizeFrom token ignore (c :: rest)
  else tokenizeFrom token ignore s

/-- Neither the first nor the last character is a blank. -/
def Trimmed (s : Text) : Prop := s.head? ≠ some ' ' ∧ s.getLast? ≠ some ' '

theorem eatLeadWhite_of_head (h : s.head? ≠ some ' ') : eatLeadWhite s = s := by
  unfold eatLeadWhite
  cases s with
  | nil => rfl
  | cons c s =>
    have hc : c ≠ ' ' := fun heq => h (congrArg some heq)
    simp [hc]

theorem eatEndWhite_of_last (h : s.getLast? ≠ some ' ') : eatEndWhite s = s := by
  have hdrop : s.rdropWhile (· = ' ') = s := by
    rw [rdropWhile_eq_self_iff]
    intro hne hblank
    rw [getLast?_eq_some_getLast hne, of_decide_eq_true hblank] at h
    exact h rfl
  unfold eatEndWhite
  rw [hdrop]
  split <;> simp_all

theorem Trimmed.eatWhite (h : Trimmed s) : eatWhite s = s := by
  unfold Base.eatWhite
  rw [eatLeadWhite_of_head h.1, eatEndWhite_of_last h.2]

theorem Trimmed.of_forall_ne (h : ∀ c ∈ s, c ≠ ' ') : Trimmed s :=
  ⟨fun hc => h _ (mem_of_mem_head? hc) rfl, fun hc => h _ (mem_of_getLast? hc) rfl⟩

section Fields

variable {token : Char}

/-- What `tokenize` can take apart again. -/
def IsField (token : Char) (s : Text) : Prop := s ≠ [] ∧ ∀ c ∈ s, c ≠ token

theorem tokenizeFrom_field (h : IsField token s) (ignore : Bool) :
    tokenizeFrom token ignore s = [s] := by
  have hdrop : s.dropWhile (· ≠ token) = [] := by
    rw [dropWhile_eq_nil_iff]
    simpa using h.2
  rw [tokenizeFrom.eq_def]
  split
  · rfl
  · rename_i heq
    rw [hdrop] at heq
    cases heq

theorem tokenizeFrom_field_append (hs : IsField token s) (ht : t.head? ≠ some token)
    (hne : t ≠ []) : tokenizeFrom token true (s ++ token :: t) =
      s :: tokenizeFrom token true t := by
  have hall : ∀ c ∈ s, decide (c ≠ token) = true := by simpa using hs.2
  obtain ⟨c, t, rfl⟩ := exists_cons_of_ne_nil hne
  have hc : c ≠ token := fun heq => ht (congrArg some heq)
  have hdrop : (s ++ token :: c :: t).dropWhile (· ≠ token) = token :: c :: t := by
    rw [dropWhile_append_of_pos hall]
    simp
  have htake : (s ++ token :: c :: t).takeWhile (· ≠ token) = s := by
    rw [takeWhile_append_of_pos hall]
    simp
  rw [tokenizeFrom.eq_def, htake]
  split
  · rename_i heq
    rw [hdrop] at heq
    cases heq
  rename_i heq
  rw [hdrop] at heq
  cases heq
  rw [if_pos rfl]
  split
  · rename_i heq
    simp [hc] at heq
  · rename_i heq
    rw [dropWhile_cons, if_neg (by simpa using hc)] at heq
    cases heq
    rfl

section

variable {fields : List Text} (hs : IsField token s) (h : ∀ t ∈ fields, IsField token t)
include hs h

theorem tokenizeFrom_fields :
    tokenizeFrom token true (s ++ fields.flatMap (token :: ·)) = s :: fields := by
  induction fields generalizing s with
  | nil => simpa using tokenizeFrom_field hs true
  | cons t fields ih =>
    have ht := h t mem_cons_self
    obtain ⟨c, t', rfl⟩ := exists_cons_of_ne_nil ht.1
    rw [flatMap_cons, cons_append, tokenizeFrom_field_append hs ?_ (by simp),
      ih ht (fun u hu => h u (.tail _ hu))]
    simpa using ht.2 c mem_cons_self

theorem tokenize_fields : tokenize token true (s ++ fields.flatMap (token :: ·)) = s :: fields := by
  obtain ⟨c, s, rfl⟩ := exists_cons_of_ne_nil hs.1
  have hc : c ≠ token := hs.2 c mem_cons_self
  unfold tokenize
  rw [if_neg (by simp), if_neg (by simp [hc]), tokenizeFrom_fields hs h]

end

theorem Trimmed.fields {fields : List Text} (hs : IsField ' ' s)
    (h : ∀ t ∈ fields, IsField ' ' t) : Trimmed (s ++ fields.flatMap (' ' :: ·)) := by
  constructor
  · rw [head?_append_of_ne_nil _ hs.1]
    exact (Trimmed.of_forall_ne hs.2).1
  induction fields generalizing s with
  | nil => simpa using (Trimmed.of_forall_ne hs.2).2
  | cons t fields ih =>
    have ht := h t mem_cons_self
    have hne : t ++ fields.flatMap (' ' :: ·) ≠ [] := by simp [ht.1]
    rw [flatMap_cons, cons_append, getLast?_append_of_ne_nil _ (cons_ne_nil _ _),
      getLast?_cons_of_ne_nil hne]
    exact ih ht (fun u hu => h u (.tail _ hu))

end Fields

abbrev Section := Text → Option Text

namespace Section

def addEntry (entryName value : Text) (append : Bool) (table : Section) : Section :=
  match table entryName with
  | none => Function.update table entryName (some value)
  | some old =>
    if append then Function.update table entryName (some (old ++ ' ' :: value))
    else Function.update table entryName (some value)

/-- An assignment. The character before `=` tells whether the value is appended; there has to be
one. -/
def add (assignment : Text) (table : Section) : Except TextFault Section :=
  match assignment.dropWhile (· ≠ '=') with
  | [] => .error (.cantParse assignment)
  | _ :: value =>
    match (assignment.takeWhile (· ≠ '=')).getLast? with
    | none => .error .undefinedBehaviour
    | some last =>
      let entryName := assignment.takeWhile (· ≠ '=')
      let append := last = '+'
      .ok (table.addEntry (eatWhite (if append then entryName.dropLast else entryName))
        (eatWhite value)
        append)

end Section

abbrev IniFile := Text → Option Section

namespace IniFile

def addSection (sectionName : Text) (file : IniFile) : IniFile :=
  match file sectionName with
  | some _ => file
  | none => Function.update file sectionName (some (fun _ => none))

/-- One line, with the section that is open. The index of its last character is an `int`. -/
def loadLine (line : Text) (st : IniFile × Option Text) :
    Except TextFault (IniFile × Option Text) :=
  let line := eatEndWhite line
  if line.head? = some '[' ∧ 2 ^ 31 < line.length then .error .undefinedBehaviour
  else if line.head? = some '[' ∧ line.getLast? = some ']' then
    let sectionName := eatWhite ((line.drop 1).take (line.length - 2))
    .ok (st.1.addSection sectionName, some sectionName)
  else
    match st.2 with
    | none => .ok st
    | some sectionName =>
      match st.1 sectionName with
      | none => .ok st
      | some table => do
        let table ← table.add line
        .ok (Function.update st.1 sectionName (some table), some sectionName)

/-- The lines of `f` from here on. White space before a line is skipped, with any empty lines. -/
def loadFrom (f : Text) (st : IniFile × Option Text) : Except TextFault (IniFile × Option Text) :=
  match _h : f.dropWhile Numeral.isSpace with
  | [] => .ok st
  | c :: f' => do
    let st ← loadLine ((c :: f').takeWhile (· ≠ '\n')) st
    loadFrom (((c :: f').dropWhile (· ≠ '\n')).drop 1) st
termination_by f.length
decreasing_by exact length_afterNewline_lt _h _

def load (f : Text) : Except TextFault IniFile := do
  let st ← loadFrom f (fun _ => none, none)
  .ok st.1

def find (sectionName entryName : Text) (file : IniFile) : Option Text :=
  (file sectionName).bind (fun table => table entryName)

/-- A name for an entry that is written once. -/
def IsName (name : Text) : Prop :=
  (∀ c ∈ name, Numeral.isSpace c = false ∧ c ≠ '=' ∧ c ≠ '[' ∧ c ≠ ']') ∧ name.getLast? ≠ some '+'

def IsSectionName (name : Text) : Prop :=
  Trimmed name ∧ '\n' ∉ name ∧ name.length + 2 ≤ 2 ^ 31

theorem IsName.trimmed (h : IsName name) : Trimmed name := by
  apply Trimmed.of_forall_ne
  rintro c hc rfl
  cases (h.1 _ hc).1

theorem add_assignment (hname : IsName name) (hvalue : Trimmed value)
    (table : Section) : table.add (name ++ '=' :: value) =
      if name = [] then .error .undefinedBehaviour
      else .ok (update table name (some value)) := by
  have hall : ∀ c ∈ name, decide (c ≠ '=') = true :=
    fun c hc => decide_eq_true (hname.1 c hc).2.1
  have hdrop : (name ++ '=' :: value).dropWhile (· ≠ '=') = '=' :: value := by
    rw [dropWhile_append_of_pos hall]
    simp
  have htake : (name ++ '=' :: value).takeWhile (· ≠ '=') = name := by
    rw [takeWhile_append_of_pos hall]
    simp
  simp only [Section.add, hdrop, htake]
  cases hlast : name.getLast? with
  | none => simp [getLast?_eq_none_iff.mp hlast]
  | some last =>
    have hne : name ≠ [] := fun heq => by simp [heq] at hlast
    have hplus : last ≠ '+' := fun heq => hname.2 (heq ▸ hlast)
    simp only [hplus, decide_false, Bool.false_eq_true, if_false, hname.trimmed.eatWhite,
      hvalue.eatWhite, if_neg hne, Section.addEntry]
    split <;> rfl

theorem head_assignment (hname : IsName name) (value : Text) :
    ∃ c s, name ++ '=' :: value = c :: s ∧ Numeral.isSpace c = false ∧ c ≠ '[' := by
  cases name with
  | nil => exact ⟨'=', value, rfl, rfl, by decide⟩
  | cons c name =>
    obtain ⟨hspace, -, hbracket, -⟩ := hname.1 c mem_cons_self
    exact ⟨c, _, rfl, hspace, hbracket⟩

theorem last_assignment (hvalue : Trimmed value) (name : Text) :
    (name ++ '=' :: value).getLast? ≠ some ' ' := by
  rw [getLast?_append_of_ne_nil _ (cons_ne_nil _ _)]
  cases value with
  | nil => simp
  | cons c value =>
    rw [getLast?_cons_cons]
    exact hvalue.2

theorem loadLine_assignment (hname : IsName name) (hvalue : Trimmed value)
    {table : Section} (hsection : file sectionName = some table) :
    loadLine (name ++ '=' :: value) (file, some sectionName) =
      if name = [] then .error .undefinedBehaviour
      else .ok (update file sectionName (some (update table name (some value))),
        some sectionName) := by
  obtain ⟨c, s, heq, -, hbracket⟩ := head_assignment hname value
  have hhead : (name ++ '=' :: value).head? ≠ some '[' := by
    rw [heq]
    simpa using hbracket
  simp only [loadLine, eatEndWhite_of_last (last_assignment hvalue name), hhead, false_and,
    if_false,
    hsection, add_assignment hname hvalue]
  split <;> rfl

theorem loadLine_header (h : IsSectionName sectionName)
    (st : IniFile × Option Text) : loadLine ('[' :: sectionName ++ "]".toList) st =
      .ok (st.1.addSection sectionName, some sectionName) := by
  obtain ⟨htrimmed, -, hlength⟩ := h
  have hlast : ('[' :: sectionName ++ [']']).getLast? = some ']' := by
    rw [getLast?_append_of_ne_nil _ (cons_ne_nil _ _)]
    rfl
  have hcut : (('[' :: sectionName ++ [']']).drop 1).take
      (('[' :: sectionName ++ [']']).length - 2) =
      sectionName := by simp
  have hend : eatEndWhite ('[' :: sectionName ++ [']']) = '[' :: sectionName ++ [']'] :=
    eatEndWhite_of_last (by rw [hlast]; decide)
  have hlen : ¬2 ^ 31 < ('[' :: sectionName ++ [']']).length := by
    simp only [cons_append, length_cons, length_append, length_nil]
    omega
  change loadLine ('[' :: sectionName ++ [']']) st = _
  unfold loadLine
  simp only [hend, hlast, hlen, hcut, htrimmed.eatWhite, and_false, if_false]
  rw [if_pos ⟨rfl, trivial⟩]

theorem loadFrom_line {line : Text} {c : Char} {s : Text} (hline : line = c :: s)
    (hspace : Numeral.isSpace c = false) (hnl : '\n' ∉ line) (f : Text)
    (st : IniFile × Option Text) :
    loadFrom (line ++ '\n' :: f) st = loadLine line st >>= loadFrom f := by
  have hall : ∀ d ∈ line, decide (d ≠ '\n') = true :=
    fun d hd => decide_eq_true (fun heq => hnl (heq ▸ hd))
  have hdrop : (line ++ '\n' :: f).dropWhile (· ≠ '\n') = '\n' :: f := by
    rw [dropWhile_append_of_pos hall]
    simp
  have htake : (line ++ '\n' :: f).takeWhile (· ≠ '\n') = line := by
    rw [takeWhile_append_of_pos hall]
    simp
  have hws : (line ++ '\n' :: f).dropWhile Numeral.isSpace = line ++ '\n' :: f := by
    rw [hline, cons_append, dropWhile_cons, if_neg (by simp [hspace])]
  rw [loadFrom.eq_def]
  split
  · rename_i heq
    rw [hws] at heq
    simp at heq
  · rename_i heq
    rw [hws] at heq
    rw [← heq, hdrop, htake]
    rfl

theorem loadFrom_newline (f : Text) (st : IniFile × Option Text) :
    loadFrom ('\n' :: f) st = loadFrom f st := by
  rw [loadFrom.eq_def, loadFrom.eq_def f]
  rfl

theorem loadFrom_nil (st : IniFile × Option Text) : loadFrom [] st = .ok st := by
  rw [loadFrom.eq_def]
  rfl

def assignments (entries : List (Text × Text)) : Text :=
  entries.flatMap (fun e => e.1 ++ '=' :: e.2 ++ ['\n'])

/-- The entries have been added to a section one after the other. -/
def enter (table : Section) (entries : List (Text × Text)) : Section :=
  entries.foldl (fun (t : Section) e => Function.update t e.1 (some e.2)) table

/-- What can be written on the line of an entry. -/
def IsEntry (e : Text × Text) : Prop := IsName e.1 ∧ Trimmed e.2 ∧ '\n' ∉ e.2

theorem newline_notMem_assignment (h : IsEntry e) : '\n' ∉ e.1 ++ '=' :: e.2 := by
  intro hmem
  rcases mem_append.mp hmem with hmem | hmem
  · cases (h.1.1 _ hmem).1
  · rcases mem_cons.mp hmem with hmem | hmem
    · cases hmem
    · exact h.2.2 hmem

variable {entries : List (Text × Text)}

theorem loadFrom_assignments (h : ∀ e ∈ entries, IsEntry e)
    {table : Section} (hsection : file sectionName = some table) :
    loadFrom (assignments entries) (file, some sectionName) = if ∀ e ∈ entries, e.1 ≠ [] then
        .ok (update file sectionName (some (enter table entries)), some sectionName)
      else .error .undefinedBehaviour := by
  induction entries generalizing file table with
  | nil =>
    rw [if_pos (by simp)]
    change loadFrom [] _ = _
    rw [loadFrom_nil, show enter table [] = table from rfl, ← hsection, update_eq_self]
  | cons e entries ih =>
    have he := h e mem_cons_self
    obtain ⟨c, s, hline, hspace, -⟩ := head_assignment he.1 e.2
    have htext : assignments (e :: entries) = (e.1 ++ '=' :: e.2) ++ '\n' ::
        assignments entries := by
      simp [assignments]
    rw [htext, loadFrom_line hline hspace (newline_notMem_assignment he),
      loadLine_assignment he.1 he.2.1 hsection]
    by_cases hname : e.1 = []
    · rw [if_pos hname, if_neg (fun hall => hall e mem_cons_self hname)]
      rfl
    · rw [if_neg hname]
      change loadFrom (assignments entries) _ = _
      rw [ih (fun e he => h e (.tail _ he)) (update_self ..)]
      simp only [forall_mem_cons, ne_eq, hname, not_false_eq_true, true_and, update_idem]
      rfl

/-- A section is loaded as it has been written, if no name is empty. -/
theorem load_section (hname : IsSectionName sectionName) (h : ∀ e ∈ entries, IsEntry e) :
    load ("\n[".toList ++ sectionName ++ "]\n".toList ++ assignments entries) =
      if ∀ e ∈ entries, e.1 ≠ [] then
        .ok (update (fun _ => none) sectionName (some (enter (fun _ => none) entries)))
      else .error .undefinedBehaviour := by
  have hnl : '\n' ∉ '[' :: sectionName ++ [']'] := by
    simpa using hname.2.1
  have htext : "\n[".toList ++ sectionName ++ "]\n".toList ++ assignments entries =
      '\n' :: (('[' :: sectionName ++ [']']) ++ '\n' :: assignments entries) := by
    simp
  have hload := loadFrom_assignments h
    (update_self sectionName (some (fun _ => none)) (fun _ => none : IniFile))
  unfold load
  rw [htext, loadFrom_newline, loadFrom_line cons_append rfl hnl,
    show loadLine ('[' :: sectionName ++ [']']) _ = _ from loadLine_header hname _]
  change (loadFrom (assignments entries)
    (update (fun _ => none) sectionName (some (fun _ => none)), some sectionName) >>= _) = _
  rw [hload]
  split
  · simp only [update_idem]
    rfl
  · rfl

theorem enter_of_notMem (h : name ∉ entries.map Prod.fst)
    (table : Section) : enter table entries name = table name := by
  induction entries generalizing table with
  | nil => rfl
  | cons e entries ih =>
    simp only [map_cons, mem_cons, not_or] at h
    change enter (update table e.1 (some e.2)) entries name = _
    rw [ih h.2, update_of_ne h.1]

theorem enter_of_mem (hnodup : (entries.map Prod.fst).Nodup)
    (he : e ∈ entries) (table : Section) : enter table entries e.1 = some e.2 := by
  induction entries generalizing table with
  | nil => cases he
  | cons d entries ih =>
    simp only [map_cons, nodup_cons] at hnodup
    change enter (update table d.1 (some d.2)) entries e.1 = _
    rcases mem_cons.mp he with rfl | he
    · rw [enter_of_notMem hnodup.1, update_self]
    · exact ih hnodup.2 he _

end IniFile

end Gem5.Base
