import Obscura.Proofs.Symbols

/-
  Statements that declare a variable and statements that assign, as they are read. A
  declarator is a type, perhaps a data location, and a name; what is assigned to is a
  name, or a list of names in brackets with places left free. Two lines are read: a
  type and a name (`declaration?_line`), and targets with a value
  (`assignment?_line`).
-/

namespace Obscura.Text

open List Symbols

variable {c : Char} {w t u : Chars} {x : Symbols}

/-! ## Texts that end in code -/

/-- The text leaves no comment and no literal open, not even a line comment. -/
def EndsInCode (t : Chars) : Prop :=
  (reader.read t).1 = .code

instance (t : Chars) : Decidable (EndsInCode t) :=
  inferInstanceAs (Decidable (_ = _))

namespace Symbols

theorem run_done (front : List Symbol) :
    reader.run (.code, { done := front }) u =
      ((reader.read u).1, { (reader.read u).2 with done := front ++ (reader.read u).2.done }) := by
  have hafter : After front {} { done := front } := by
    rw [After, append_nil]
  obtain ⟨hmode, hsymbols⟩ := (keeps_after front).run hafter .code u
  exact Prod.ext hmode.symm hsymbols

theorem step_blank_of_endsInCode {t : Chars} (h : EndsInCode t) (hc : isBlank c) :
    reader.step (reader.read t) c = (.code, { done := symbolsOf t }) := by
  have hread : reader.read t = (.code, (reader.read t).2) := Prod.ext h rfl
  rw [symbolsOf, readLine_eq, hread, Reader.step_blank hc, Reader.step_blank (by decide)]
  rfl

end Symbols

section EndsInCode

variable {t : Chars} (h : EndsInCode t)

include h

theorem read_append_blank (hc : isBlank c) (u : Chars) :
    reader.read (t ++ c :: u) = ((reader.read u).1,
      { (reader.read u).2 with done := symbolsOf t ++ (reader.read u).2.done }) := by
  rw [Reader.read_append, Reader.run_cons, step_blank_of_endsInCode h hc, run_done]

theorem endsInCode_append_blank (hc : isBlank c) {u : Chars} :
    EndsInCode (t ++ c :: u) ↔ EndsInCode u := by
  rw [EndsInCode, read_append_blank h hc]
  exact Iff.rfl

theorem symbolsOf_append_blank (hc : isBlank c) (u : Chars) :
    symbolsOf (t ++ c :: u) = symbolsOf t ++ symbolsOf u := by
  have hread := read_append_blank h hc (u ++ ['\n'])
  rw [symbolsOf, readLine, append_assoc, cons_append, hread]
  rfl

theorem isWhole_of_endsInCode : IsWhole t := by
  rw [IsWhole, readLine_eq, step_blank_of_endsInCode h (by decide)]

theorem symbolsOf_eq_settle : symbolsOf t = (reader.read t).2.settle.done := by
  have hread : reader.read t = (.code, (reader.read t).2) := Prod.ext h rfl
  rw [symbolsOf, readLine_eq, hread, Reader.step_blank (by decide)]
  rfl

theorem read_concat_mark (hc : Reader.isMark c) :
    ∃ joined, reader.read (t ++ [c]) = (.code, ⟨symbolsOf t ++ [.mark c joined], [], true⟩) := by
  have hread : reader.read t = (.code, (reader.read t).2) := Prod.ext h rfl
  refine ⟨(reader.read t).2.settle.joined, ?_⟩
  rw [Reader.read_append, Reader.run_cons, Reader.run_nil, symbolsOf_eq_settle h, hread, Reader.step_mark hc]
  rfl

theorem endsInCode_concat_mark (hc : Reader.isMark c) : EndsInCode (t ++ [c]) := by
  obtain ⟨joined, hread⟩ := read_concat_mark h hc
  rw [EndsInCode, hread]

theorem symbolsOf_concat_mark (hc : Reader.isMark c) :
    ∃ joined, symbolsOf (t ++ [c]) = symbolsOf t ++ [.mark c joined] := by
  obtain ⟨joined, hread⟩ := read_concat_mark h hc
  refine ⟨joined, ?_⟩
  rw [symbolsOf, readLine_eq, hread, Reader.step_blank (by decide)]
  rfl

end EndsInCode

theorem symbolsOf_nil : symbolsOf [] = [] := by
  rw [symbolsOf, readLine, nil_append, Reader.read, Reader.run_cons, Reader.step_blank (by decide)]
  rfl

theorem read_gap {gap : Chars} (hgap : ∀ c ∈ gap, isBlank c) :
    reader.read (gap ++ t) = reader.read t := by
  have hblanks : reader.read gap = (.code, {}) := Reader.run_blanks rfl hgap
  rw [Reader.read_append, hblanks]
  rfl

theorem symbolsOf_single (hc : Reader.isMark c) : symbolsOf [c] = [.mark c false] := by
  rw [symbolsOf, readLine_eq, Reader.read, Reader.run_cons, Reader.step_mark hc, Reader.run_nil,
    Reader.step_blank (by decide)]
  rfl

/-! ## Names -/

/-- A text of characters that names are made of. -/
def IsIdentifier (w : Chars) : Prop :=
  w ≠ [] ∧ ∀ c ∈ w, isNameChar c = true

instance (w : Chars) : Decidable (IsIdentifier w) :=
  inferInstanceAs (Decidable (_ ∧ _))

theorem Symbols.run_name (hw : ∀ c ∈ w, isNameChar c) :
    reader.run (.code, x) w = (.code, { x with word := x.word ++ w }) := by
  refine Reader.run_name (fun x w => { x with word := x.word ++ w }) (fun x => ?_) (fun x c w => ?_) (x := x) hw
  · rw [append_nil]
  · rw [append_cons]
    rfl

theorem IsIdentifier.read (h : IsIdentifier w) : reader.read w = (.code, { word := w }) :=
  run_name h.2

theorem IsIdentifier.endsInCode (h : IsIdentifier w) : EndsInCode w := by
  rw [EndsInCode, h.read]

theorem IsIdentifier.symbolsOf (h : IsIdentifier w) : symbolsOf w = [.word w false] := by
  rw [Text.symbolsOf, readLine_eq, h.read, Reader.step_blank (by decide)]
  show done (blank { word := w }) = _
  rw [blank, settle, if_neg h.1]
  rfl

theorem isIdentifier_of_ascii (hne : w ≠ [])
    (h : w.all (fun c => decide (c.toNat < 128) && (c.isAlphanum || c == '_')) = true) : IsIdentifier w := by
  refine ⟨hne, fun c hc => ?_⟩
  have hascii := all_eq_true.1 h c hc
  rw [Bool.and_eq_true, decide_eq_true_iff] at hascii
  exact Reader.isNameChar_of_ascii hascii.1 hascii.2

def Symbol.joined : Symbol → Bool
  | .word _ j => j
  | .mark _ j => j
  | .quoted _ j => j

/-- The symbol is not part of an assignment sign. -/
def Symbol.isUnsigned : Symbol → Bool
  | .mark c _ => c != '='
  | _ => true

namespace Symbols

/-- What is read first stands behind nothing. -/
def Starts (x : Symbols) : Prop :=
  (x.done = [] → x.joined = false) ∧ ∀ e ∈ x.done.head?, e.joined = false

theorem Starts.settle (h : x.Starts) : x.settle.Starts := by
  unfold Symbols.settle
  split
  · exact h
  · refine ⟨fun hnil => absurd hnil (by simp), ?_⟩
    cases hdone : x.done with
    | nil =>
      intro e he
      cases he
      exact h.1 hdone
    | cons e es =>
      intro e' he'
      exact h.2 e' (hdone ▸ he')

theorem Starts.blank (h : x.Starts) : x.blank.Starts := ⟨fun _ => rfl, h.settle.2⟩

theorem Starts.add (h : x.Starts) {e : Bool → Symbol} (he : ∀ j, (e j).joined = j) :
    (x.add e).Starts := by
  refine ⟨fun hnil => absurd hnil (by simp [Symbols.add]), ?_⟩
  cases hdone : x.settle.done with
  | nil =>
    intro e' he'
    rw [Symbols.add, hdone] at he'
    cases he'
    rw [he, h.settle.1 hdone]
  | cons d ds =>
    intro e' he'
    rw [Symbols.add, hdone] at he'
    exact h.settle.2 e' (hdone ▸ he')

theorem keeps_starts : reader.Keeps fun _ x => x.Starts where
  letter := fun _ _ _ h => h
  blank := fun _ _ h => h.blank
  mark := fun _ _ _ h => h.add fun _ => rfl
  quoted := fun _ _ _ h => h.add fun _ => rfl

theorem starts_read : (reader.read t).2.Starts := by
  have hstart : Starts {} := ⟨fun _ => rfl, fun e he => by cases he⟩
  exact (keeps_starts.run (x := {}) hstart .code t).2

end Symbols

theorem joined_head?_symbolsOf : ∀ e ∈ (symbolsOf t).head?, e.joined = false :=
  starts_read.2

end Obscura.Text

namespace Obscura.Flow

open Text Ast Json List

variable {es : List Symbol} {p : Option Chars} {w name : Chars} {j : Bool}

/-! ## Reading declarations -/

/-- Where the data of a variable are. -/
inductive DataLocation where
  | memory
  | storage
  | calldata
deriving Repr, DecidableEq

def dataLocation? (w : Chars) : Option DataLocation :=
  if w = "memory".toList then some .memory
  else if w = "storage".toList then some .storage
  else if w = "calldata".toList then some .calldata
  else none

/-- A variable as it is declared. -/
structure Declarator where
  type : List Symbol
  location : Option DataLocation := none
  name : Chars
deriving Repr, DecidableEq

/-- The word at the end and what stands before it. -/
def lastWord? (es : List Symbol) : Option (List Symbol × Chars) :=
  match es.getLast? with
  | some (.word w _) => some (es.dropLast, w)
  | _ => none

def located (es : List Symbol) : List Symbol × Option DataLocation :=
  match lastWord? es with
  | some (front, w) =>
    match dataLocation? w with
    | some l => (front, some l)
    | none => (es, none)
  | none => (es, none)

/-- A type, perhaps a data location, and a name. -/
def declarator? (es : List Symbol) : Option Declarator :=
  match lastWord? es with
  | some (front, name) =>
    if (located front).1 = [] then none else some ⟨(located front).1, (located front).2, name⟩
  | none => none

def startsWithSign : List Symbol → Bool
  | .mark c _ :: .mark d true :: _ => c == '=' && d != '=' && d != '>'
  | .mark c _ :: _ => c == '='
  | _ => false

/-- What stands before and behind the first assignment sign. -/
def atSign? : List Symbol → Option (List Symbol × List Symbol)
  | [] => none
  | e :: es =>
    if startsWithSign (e :: es) then some ([], es)
    else (atSign? es).map fun sides => (e :: sides.1, sides.2)

def statement? (es : List Symbol) : Option (List Symbol) :=
  match es.getLast? with
  | some (.mark ';' _) => some es.dropLast
  | _ => none

/-- The variable that a statement declares, and the value that it gives it. -/
def declaration? (t : Chars) : Option (Declarator × Option (List Symbol)) :=
  (statement? (symbolsOf t)).bind fun es =>
    match atSign? es with
    | none => (declarator? es).map fun d => (d, none)
    | some (front, value) => (declarator? front).map fun d => (d, some value)

/-- A statement that assigns. A place in a list of targets may be left free. -/
structure Assignment where
  targets : List (Option Chars)
  value : List Symbol
deriving Repr, DecidableEq

/-- The targets in a list, up to the bracket at its end. -/
def listed? : List Symbol → Option (List (Option Chars))
  | [.mark ')' _] => some [none]
  | [.word w _, .mark ')' _] => some [some w]
  | .mark ',' _ :: es => (listed? es).map (none :: ·)
  | .word w _ :: .mark ',' _ :: es => (listed? es).map (some w :: ·)
  | _ => none

def targets? : List Symbol → Option (List (Option Chars))
  | [.word w _] => some [some w]
  | .mark '(' _ :: es => listed? es
  | _ => none

def assignment? (t : Chars) : Option Assignment :=
  (statement? (symbolsOf t)).bind fun es =>
    (atSign? es).bind fun sides => (targets? sides.1).map fun targets => ⟨targets, sides.2⟩

theorem lastWord?_concat :
    lastWord? (es ++ [.word w j]) = some (es, w) := by
  rw [lastWord?, getLast?_concat, dropLast_concat]

theorem statement?_concat : statement? (es ++ [.mark ';' j]) = some es := by
  rw [statement?, getLast?_concat, dropLast_concat]
  rfl

/-- The symbols of a type: there are some, no data location ends them, and none of
them assigns. -/
structure IsType (es : List Symbol) : Prop where
  nonempty : es ≠ []
  unlocated : (located es).2 = none
  unsigned : atSign? es = none

theorem isType_word (h : IsIdentifier w) (hw : dataLocation? w = none) : IsType (symbolsOf w) := by
  rw [h.symbolsOf]
  refine ⟨cons_ne_nil _ _, ?_, rfl⟩
  have hlast : lastWord? [.word w false] = some ([], w) := rfl
  rw [located, hlast]
  dsimp only
  rw [hw]

theorem located_of_none (h : (located es).2 = none) : located es = (es, none) := by
  revert h
  unfold located
  split
  · split
    · intro h
      cases h
    · exact fun _ => rfl
  · exact fun _ => rfl

theorem IsType.declarator?_concat (h : IsType es) :
    declarator? (es ++ [.word name j]) = some ⟨es, none, name⟩ := by
  rw [declarator?, lastWord?_concat]
  dsimp only
  rw [located_of_none h.unlocated, if_neg h.nonempty]

theorem startsWithSign_concat_word (e : Symbol) :
    startsWithSign (e :: (es ++ [.word w j])) = startsWithSign (e :: es) := by
  rcases e with - | c | -
  · rfl
  · rcases es with - | ⟨- | ⟨d, - | -⟩ | -, es⟩ <;> rfl
  · rfl

theorem atSign?_concat_word (h : atSign? es = none) :
    atSign? (es ++ [.word w j]) = none := by
  induction es with
  | nil => rfl
  | cons e es ih =>
    rw [atSign?] at h
    rw [cons_append, atSign?, startsWithSign_concat_word]
    split at h
    · cases h
    · rename_i hsign
      rw [if_neg hsign, ih (Option.map_eq_none_iff.1 h)]
      rfl

theorem startsWithSign_of_isUnsigned {e : Symbol} (h : e.isUnsigned) :
    startsWithSign (e :: es) = false := by
  rcases e with - | ⟨c, j⟩ | -
  · rfl
  · have hc : (c == '=') = false := by simpa [Symbol.isUnsigned] using h
    rcases es with - | ⟨- | ⟨d, - | -⟩ | -, es⟩ <;> simp [startsWithSign, hc]
  · rfl

theorem atSign?_append (h : ∀ e ∈ es, e.isUnsigned) {value : List Symbol}
    (hv : ∀ e ∈ value.head?, e.joined = false) :
    atSign? (es ++ .mark '=' j :: value) = some (es, value) := by
  induction es with
  | nil =>
    have hsign : startsWithSign (.mark '=' j :: value) := by
      rcases value with - | ⟨- | ⟨d, - | -⟩ | -, value⟩
      · rfl
      · rfl
      · rfl
      · cases hv _ rfl
      · rfl
    rw [nil_append, atSign?, if_pos hsign]
  | cons e es ih =>
    obtain ⟨he, hes⟩ := forall_mem_cons.1 h
    rw [cons_append, atSign?, startsWithSign_of_isUnsigned he, if_neg Bool.false_ne_true, ih hes]
    rfl

/-! ## Lines that declare and lines that assign -/

/-- **A line that declares**: a type and a name. -/
theorem declaration?_line {gap type name : Chars} (hgap : ∀ c ∈ gap, isBlank c)
    (hcode : EndsInCode type) (htype : IsType (symbolsOf type)) (hname : IsIdentifier name) :
    declaration? (gap ++ type ++ ' ' :: (name ++ [';'])) = some (⟨symbolsOf type, none, name⟩, none) := by
  obtain ⟨j, hj⟩ := symbolsOf_concat_mark hname.endsInCode (c := ';') (Reader.isMark_of_mem rfl)
  have hsymbols : symbolsOf (gap ++ type ++ ' ' :: (name ++ [';'])) =
      symbolsOf type ++ [.word name false] ++ [.mark ';' j] := by
    rw [append_assoc, symbolsOf, readLine_gap hgap, ← symbolsOf, symbolsOf_append_blank hcode (by decide), hj,
      hname.symbolsOf, append_assoc]
  rw [declaration?, hsymbols, statement?_concat]
  dsimp only [Option.bind]
  rw [atSign?_concat_word htype.unsigned, htype.declarator?_concat]
  rfl

/-- The text reads as the targets of an assignment. -/
structure IsTargets (left : Chars) (targets : List (Option Chars)) : Prop where
  endsInCode : EndsInCode left
  unsigned : ∀ e ∈ symbolsOf left, e.isUnsigned = true
  reads : targets? (symbolsOf left) = some targets

def assignLine (left right : Chars) : Chars :=
  left ++ " = ".toList ++ right ++ [';']

theorem symbolsOf_assignLine {left right : Chars} (hleft : EndsInCode left) (hright : EndsInCode right) :
    EndsInCode (assignLine left right) ∧
      ∃ j, symbolsOf (assignLine left right) =
        symbolsOf left ++ .mark '=' false :: symbolsOf right ++ [.mark ';' j] := by
  have hsemicolon : Reader.isMark ';' := Reader.isMark_of_mem rfl
  have hsign : Reader.isMark '=' := Reader.isMark_of_mem rfl
  have hcode : EndsInCode ['='] := endsInCode_concat_mark (t := []) rfl hsign
  have htext : assignLine left right = left ++ ' ' :: (['='] ++ ' ' :: (right ++ [';'])) := by
    simp [assignLine]
  obtain ⟨j, hj⟩ := symbolsOf_concat_mark hright hsemicolon
  rw [htext]
  refine ⟨?_, j, ?_⟩
  · rw [endsInCode_append_blank hleft (by decide), endsInCode_append_blank hcode (by decide)]
    exact endsInCode_concat_mark hright hsemicolon
  · rw [symbolsOf_append_blank hleft (by decide), symbolsOf_append_blank hcode (by decide), hj,
      symbolsOf_single hsign]
    simp

/-- **A line that assigns.** -/
theorem assignment?_line {left right : Chars} {targets : List (Option Chars)} (hleft : IsTargets left targets)
    (hright : EndsInCode right) : assignment? (assignLine left right) = some ⟨targets, symbolsOf right⟩ := by
  obtain ⟨-, j, hsymbols⟩ := symbolsOf_assignLine hleft.endsInCode hright
  rw [assignment?, hsymbols, statement?_concat]
  dsimp only [Option.bind]
  rw [atSign?_append hleft.unsigned joined_head?_symbolsOf]
  dsimp only [Option.bind]
  rw [hleft.reads]
  rfl

theorem isTargets_name (h : IsIdentifier w) : IsTargets w [some w] where
  endsInCode := h.endsInCode
  unsigned := by
    rw [h.symbolsOf]
    exact forall_mem_singleton.2 rfl
  reads := by
    rw [h.symbolsOf]
    rfl

def IsPlace (p : Option Chars) : Prop :=
  ∀ w ∈ p, IsIdentifier w

def placeText (p : Option Chars) : Chars :=
  p.getD []

def placeSymbols (p : Option Chars) (j : Bool) : List Symbol :=
  p.toList.map fun w => .word w j

theorem run_place (hp : IsPlace p) {c : Char} (hc : Reader.isMark c)
    (done : List Symbol) (j : Bool) (rest : Chars) :
    ∃ k, Symbols.reader.run (.code, ⟨done, [], j⟩) (placeText p ++ c :: rest) =
      Symbols.reader.run (.code, ⟨done ++ placeSymbols p j ++ [.mark c k], [], true⟩) rest := by
  cases p with
  | none =>
    refine ⟨j, ?_⟩
    rw [placeText, Option.getD_none, nil_append, Reader.run_cons, Reader.step_mark hc]
    simp [placeSymbols, Symbols.reader, Symbols.add, Symbols.settle]
  | some w =>
    refine ⟨true, ?_⟩
    have hw := hp w rfl
    rw [placeText, Option.getD_some, Reader.run_append, Symbols.run_name hw.2, Reader.run_cons,
      Reader.step_mark hc]
    simp [placeSymbols, Symbols.reader, Symbols.add, Symbols.settle, hw.1]

theorem run_places {ps : List (Option Chars)} (h : ∀ q ∈ p :: ps, IsPlace q)
    (done : List Symbol) (j : Bool) :
    ∃ es, Symbols.reader.run (.code, ⟨done, [], j⟩) (joinWith [','] ((p :: ps).map placeText) ++ [')']) =
        (.code, ⟨done ++ es, [], true⟩) ∧
      listed? es = some (p :: ps) ∧ ∀ e ∈ es, e.isUnsigned := by
  induction ps generalizing p done j with
  | nil =>
    obtain ⟨k, hrun⟩ := run_place (h p mem_cons_self) (c := ')')
      (Reader.isMark_of_mem rfl) done j []
    refine ⟨placeSymbols p j ++ [.mark ')' k], ?_, ?_, ?_⟩
    · rw [← append_assoc]
      exact hrun
    · cases p <;> rfl
    · cases p <;> simp [placeSymbols, Symbol.isUnsigned]
  | cons q ps ih =>
    obtain ⟨hp, hps⟩ := forall_mem_cons.1 h
    obtain ⟨k, hrun⟩ := run_place hp (c := ',') (Reader.isMark_of_mem rfl) done j
      (joinWith [','] ((q :: ps).map placeText) ++ [')'])
    obtain ⟨es, hes, hlisted, hunsigned⟩ := ih hps (done ++ placeSymbols p j ++ [.mark ',' k]) true
    refine ⟨placeSymbols p j ++ .mark ',' k :: es, ?_, ?_, ?_⟩
    · rw [hes] at hrun
      simpa [joinWith] using hrun
    · cases p with
      | none =>
        show (listed? es).map _ = _
        rw [hlisted]
        rfl
      | some w =>
        show (listed? es).map _ = _
        rw [hlisted]
        rfl
    · cases p <;> simpa [placeSymbols, Symbol.isUnsigned] using hunsigned

def listText (ps : List (Option Chars)) : Chars :=
  '(' :: (joinWith [','] (ps.map placeText) ++ [')'])

theorem isTargets_list {ps : List (Option Chars)} (hne : ps ≠ []) (h : ∀ p ∈ ps, IsPlace p) :
    IsTargets (listText ps) ps := by
  obtain ⟨p, ps, rfl⟩ := exists_cons_of_ne_nil hne
  obtain ⟨es, hes, hlisted, hunsigned⟩ := run_places h [.mark '(' false] true
  have hread : Symbols.reader.read (listText (p :: ps)) = (.code, ⟨.mark '(' false :: es, [], true⟩) := by
    rw [listText, Reader.read, Reader.run_cons, Reader.step_mark (Reader.isMark_of_mem rfl)]
    exact hes
  have hsymbols : symbolsOf (listText (p :: ps)) = .mark '(' false :: es := by
    rw [symbolsOf, readLine_eq, hread, Reader.step_blank (by decide)]
    rfl
  refine ⟨?_, ?_, ?_⟩
  · rw [EndsInCode, hread]
  · rw [hsymbols]
    exact forall_mem_cons.2 ⟨rfl, hunsigned⟩
  · rw [hsymbols]
    exact hlisted

end Obscura.Flow
