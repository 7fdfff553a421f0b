import Obscura.Proofs.Symbols

/-
  The statements of a piece of code. A statement is a block, a condition or a loop with
  the statement that it governs, an attempt with its clauses, or all up to a semicolon
  outside of brackets. The statements of two pieces of code, one behind the other on
  lines of their own, are those of the first and then those of the second
  (`statementsOf?_append`).
-/

namespace Obscura.Flow

open Text List

variable {a b : List Symbol} {m n : Nat} {t : Chars} {xs ys : List (List Symbol)}

/-! ## Parts of statements -/

/-- A part of a statement is read off the front; what follows it is given back. -/
def Part : Type :=
  List Symbol → Option (List Symbol)

def Part.refused : Part := fun _ =>
  none

def Part.nothing : Part :=
  some

/-- What a mark does to a part, where some number of brackets is open. -/
inductive Move where
  | goes (depth : Nat)
  | ends
  | fails

/-- All up to the mark that ends the part. -/
def scan (move : Nat → Char → Move) (depth : Nat) : Part
  | [] => none
  | .mark c _ :: r =>
    match move depth c with
    | .goes d => scan move d r
    | .ends => some r
    | .fails => none
  | _ :: r => scan move depth r

def isOpening (c : Char) : Bool :=
  c == '(' || c == '[' || c == '\x7b'

def isClosing (c : Char) : Bool :=
  c == ')' || c == ']' || c == '\x7d'

/-- A part that ends with the bracket that closes the first brace. -/
def blockMove (depth : Nat) (c : Char) : Move :=
  if depth = 0 then if c = '\x7b' then .goes 1 else .goes 0
  else if isOpening c then .goes (depth + 1)
  else if isClosing c then if depth = 1 then .ends else .goes (depth - 1)
  else .goes depth

/-- A part that ends with a semicolon outside of brackets. -/
def simpleMove (depth : Nat) (c : Char) : Move :=
  if isOpening c then .goes (depth + 1)
  else if isClosing c then if depth = 0 then .fails else .goes (depth - 1)
  else if c = ';' ∧ depth = 0 then .ends
  else .goes depth

/-- All up to the end of the next group in braces. -/
def block : Part :=
  scan blockMove 0

/-- The rest of a group in brackets. -/
def group : Part :=
  scan blockMove 1

/-- All up to the next semicolon. -/
def simple : Part :=
  scan simpleMove 0

def condition : Part
  | .mark c _ :: r => if c = '(' then group r else none
  | _ => none

def Part.next (p q : Part) : Part := fun ts =>
  (p ts).bind q

/-- What follows a word at the front. -/
def behindWord (w : Chars) : Part
  | .word v _ :: r => if v = w then some r else none
  | _ => none

/-- One of two parts, the first behind a word. -/
def Part.choice (w : Chars) (p q : Part) : Part := fun ts =>
  match behindWord w ts with
  | some r => p r
  | none => q ts

/-- The clauses for what an attempt raises, behind the word `catch`. -/
def handlers : Nat → Part
  | 0 => .refused
  | n + 1 => block.next (.choice "catch".toList (handlers n) .nothing)

/-- An attempt behind the word `try`. The braces before the word `catch` hold what is done on
success; others before them belong to the call. -/
def attempt : Nat → Part
  | 0 => .refused
  | n + 1 => block.next (.choice "catch".toList (handlers n) (attempt n))

/-- A statement behind its first word. -/
def worded (w : Chars) (n : Nat) (governed : Part) : Part :=
  if w = "if".toList then (condition.next governed).next (.choice "else".toList governed .nothing)
  else if w = "while".toList ∨ w = "for".toList then condition.next governed
  else if w = "do".toList then governed.next simple
  else if w = "try".toList then attempt n
  else if w = "unchecked".toList ∨ w = "assembly".toList then block
  else if w = "else".toList ∨ w = "catch".toList then .refused
  else simple

/-- A statement; `n` bounds how deep statements govern others. A semicolon alone is none. -/
def statement : Nat → Part
  | 0, _ => none
  | n + 1, .word w _ :: r => worded w n (statement n) r
  | _ + 1, .mark c joined :: r =>
    if c = '\x7b' then group r else if c = ';' then none else simple (.mark c joined :: r)
  | _ + 1, ts => simple ts

/-- Cut symbols into statements; `n` bounds their number and depth. -/
def statements : Nat → List Symbol → Option (List (List Symbol))
  | _, [] => some []
  | 0, _ :: _ => none
  | n + 1, x :: ts =>
    (statement (n + 1) (x :: ts)).bind fun r =>
      (statements n r).map ((x :: ts).take ((x :: ts).length - r.length) :: ·)

/-- The statements of a piece of code, if it is made of whole ones. -/
def statementsOf? (t : Chars) : Option (List (List Symbol)) :=
  if (readLine t).1 = .code then statements (symbolsOf t).length (symbolsOf t) else none

/-! ## What follows a part -/

/-- The symbols continue no statement before them. -/
def StartsAfresh (b : List Symbol) : Prop :=
  behindWord "else".toList b = none ∧ behindWord "catch".toList b = none

/-- The symbols end with a semicolon or a closing bracket. -/
def Closes (ts : List Symbol) : Prop :=
  ∃ us c joined, ts = us ++ [.mark c joined] ∧ (c = ';' ∨ isClosing c)

theorem Closes.append (h : Closes b) (a : List Symbol) : Closes (a ++ b) := by
  obtain ⟨us, c, joined, rfl, hc⟩ := h
  exact ⟨a ++ us, c, joined, (append_assoc ..).symm, hc⟩

/-- Of `a` the end `r` is left, behind a semicolon or a closing bracket; if `idle`, it may be all of it. -/
def Leaves (idle : Bool) (a r : List Symbol) : Prop :=
  (∃ u, a = u ++ r ∧ Closes u) ∨ idle = true ∧ a = r

namespace Leaves

variable {idle : Bool} {r : List Symbol}

theorem exists_eq (h : Leaves false a r) : ∃ u, a = u ++ r ∧ Closes u :=
  h.resolve_right fun h => Bool.false_ne_true h.1

theorem cons (h : Leaves false a r) (x : Symbol) : Leaves idle (x :: a) r := by
  obtain ⟨u, rfl, hu⟩ := h.exists_eq
  exact .inl ⟨x :: u, rfl, hu.append [x]⟩

theorem trans (h : Leaves false a b) (h' : Leaves idle b r) : Leaves false a r := by
  obtain ⟨u, rfl, hu⟩ := h.exists_eq
  rcases h' with ⟨v, rfl, hv⟩ | ⟨-, rfl⟩
  · exact .inl ⟨u ++ v, (append_assoc ..).symm, hv.append u⟩
  · exact .inl ⟨u, rfl, hu⟩

end Leaves

/-- Whatever `p` reads ends with a semicolon or a closing bracket, or is nothing if `idle`; and `q`
reads it too, also with more symbols behind it. -/
structure Extends (idle : Bool) (p q : Part) : Prop where
  reads : ∀ {a r : List Symbol}, p a = some r →
    Leaves idle a r ∧ ∀ b, StartsAfresh b → q (a ++ b) = some (r ++ b)

namespace Extends

variable {idle : Bool} {p p' q q' : Part}

theorem scan {move : Nat → Char → Move} (hmove : ∀ d c, move d c = .ends → c = ';' ∨ isClosing c)
    (depth : Nat) :
    Extends false (scan move depth) (scan move depth) := by
  refine ⟨fun {a r} h => ?_⟩
  induction a generalizing depth with
  | nil => cases h
  | cons x a ih =>
    cases x with
    | word w joined => exact (ih depth h).imp_left (·.cons _)
    | quoted c joined => exact (ih depth h).imp_left (·.cons _)
    | mark c joined =>
      rw [Flow.scan] at h
      simp only [cons_append, Flow.scan]
      split at h
      · exact (ih _ h).imp_left (·.cons _)
      · rename_i hends
        cases h
        exact ⟨.inl ⟨_, rfl, [], c, joined, rfl, hmove _ c hends⟩, fun _ _ => rfl⟩
      · cases h

theorem scan_blockMove (depth : Nat) : Extends false (Flow.scan blockMove depth)
    (Flow.scan blockMove depth) := by
  refine scan (fun d c h => ?_) depth
  unfold blockMove at h
  split_ifs at h with _ _ _ hc
  exact .inr hc

theorem simple : Extends false simple simple := by
  refine scan (fun d c h => ?_) 0
  unfold simpleMove at h
  split_ifs at h with _ _ _ hc
  exact .inl hc.1

theorem condition : Extends false condition condition := by
  refine ⟨fun {a r} h => ?_⟩
  cases a with
  | nil => cases h
  | cons x a =>
    cases x with
    | word w joined => cases h
    | quoted c joined => cases h
    | mark c joined =>
      rw [Flow.condition] at h
      simp only [cons_append, Flow.condition]
      split at h
      · rename_i hc
        simp only [if_pos hc]
        exact ((scan_blockMove 1).reads h).imp_left (·.cons _)
      · cases h

theorem refused : Extends false .refused q := ⟨fun h => nomatch h⟩

theorem nothing : Extends true .nothing .nothing :=
  ⟨fun h => ⟨.inr ⟨rfl, Option.some.inj h⟩, fun b _ => congrArg (fun r => some (r ++ b)) (Option.some.inj h)⟩⟩

theorem next (hp : Extends false p p') (hq : Extends idle q q') : Extends false (p.next q) (p'.next q') := by
  refine ⟨fun {a r} h => ?_⟩
  obtain ⟨m, hm, hr⟩ := Option.bind_eq_some_iff.1 h
  obtain ⟨hleft, hread⟩ := hp.reads hm
  obtain ⟨hleft', hread'⟩ := hq.reads hr
  refine ⟨hleft.trans hleft', fun b hb => ?_⟩
  rw [Part.next, hread b hb]
  exact hread' b hb

/-- A word that follows is found before more symbols as well, unless these start with it. -/
theorem choice {w : Chars} (hw : w = "else".toList ∨ w = "catch".toList) (hp : Extends false p p')
    (hq : Extends idle q q') : Extends idle (.choice w p q) (.choice w p' q') := by
  refine ⟨fun {a r} h => ?_⟩
  have hbehind (b : List Symbol) (hb : StartsAfresh b) :
      behindWord w (a ++ b) = (behindWord w a).map (· ++ b) := by
    cases a with
    | nil =>
      rcases hw with rfl | rfl
      · exact hb.1
      · exact hb.2
    | cons x a =>
      cases x with
      | quoted c joined => rfl
      | mark c joined => rfl
      | word v joined =>
        rw [cons_append, behindWord, behindWord]
        split
        · rfl
        · rfl
  unfold Part.choice at h ⊢
  cases hfound : behindWord w a with
  | none =>
    rw [hfound] at h hbehind
    refine (hq.reads h).imp_right fun hread b hb => ?_
    rw [hbehind b hb]
    exact hread b hb
  | some m =>
    rw [hfound] at h hbehind
    obtain ⟨hleft, hread⟩ := hp.reads h
    refine ⟨?_, fun b hb => ?_⟩
    · unfold behindWord at hfound
      split at hfound
      · split at hfound
        · cases hfound
          exact hleft.cons _
        · cases hfound
      · cases hfound
    · rw [hbehind b hb]
      exact hread b hb

theorem handlers (hnm : n ≤ m) : Extends false (handlers n) (handlers m) := by
  induction n generalizing m with
  | zero => exact .refused
  | succ n ih =>
    cases m with
    | zero => omega
    | succ m => exact (scan_blockMove 0).next (.choice (.inr rfl) (ih (by omega)) .nothing)

theorem attempt (hnm : n ≤ m) : Extends false (attempt n) (attempt m) := by
  induction n generalizing m with
  | zero => exact .refused
  | succ n ih =>
    cases m with
    | zero => omega
    | succ m => exact (scan_blockMove 0).next (.choice (.inr rfl) (.handlers (by omega)) (ih (by omega)))

theorem worded (hnm : n ≤ m) (hp : Extends false p p') (w : Chars) :
    Extends false (worded w n p) (worded w m p') := by
  unfold Flow.worded
  split
  · exact (condition.next hp).next (.choice (.inl rfl) hp .nothing)
  split
  · exact condition.next hp
  split
  · exact hp.next simple
  split
  · exact .attempt hnm
  split
  · exact scan_blockMove 0
  split
  · exact .refused
  · exact simple

/-- **A statement is read the same way whatever follows it**, unless a clause of it follows. -/
theorem statement (hnm : n ≤ m) : Extends false (statement n) (statement m) := by
  induction n generalizing m with
  | zero => exact ⟨fun h => nomatch h⟩
  | succ n ih =>
    cases m with
    | zero => omega
    | succ m =>
      refine ⟨fun {a r} h => ?_⟩
      cases a with
      | nil => cases h
      | cons x a =>
        cases x with
        | word w joined => exact ((worded (by omega) (ih (by omega)) w).reads h).imp_left (·.cons _)
        | quoted c joined => exact simple.reads h
        | mark c joined =>
          rw [Flow.statement] at h
          simp only [cons_append, Flow.statement]
          split at h
          · rename_i hc
            simp only [if_pos hc]
            exact ((scan_blockMove 1).reads h).imp_left (·.cons _)
          · rename_i hc
            split at h
            · cases h
            · rename_i hsemi
              simp only [if_neg hc, if_neg hsemi]
              exact simple.reads h

end Extends

/-! ## Statements one after the other -/

theorem statements_cons {x : Symbol} {ts : List Symbol} (h : statements n (x :: ts) = some xs) :
    ∃ m r ys, n = m + 1 ∧ statement (m + 1) (x :: ts) = some r ∧ statements m r = some ys ∧
      xs = (x :: ts).take ((x :: ts).length - r.length) :: ys := by
  cases n with
  | zero => cases h
  | succ m =>
    obtain ⟨r, hr, h⟩ := Option.bind_eq_some_iff.1 h
    obtain ⟨ys, hys, rfl⟩ := Option.map_eq_some_iff.1 h
    exact ⟨m, r, ys, rfl, hr, hys, rfl⟩

/-- Statements end with a semicolon or a closing bracket. -/
theorem closes_of_statements (h : statements n b = some ys) : b = [] ∨ Closes b := by
  induction n generalizing b ys with
  | zero =>
    cases b with
    | nil => exact .inl rfl
    | cons x b => cases h
  | succ n ih =>
    cases b with
    | nil => exact .inl rfl
    | cons x b =>
      obtain ⟨m, r, zs, ⟨⟩, hr, hzs, -⟩ := statements_cons h
      have hleft := ((Extends.statement (Nat.le_refl _)).reads hr).1
      rcases ih hzs with rfl | hrest
      · obtain ⟨u, hu, hcloses⟩ := hleft.exists_eq
        exact .inr (by rwa [hu, append_nil])
      · obtain ⟨u, hu, -⟩ := hleft.exists_eq
        exact .inr (hu ▸ hrest.append u)

theorem startsAfresh_of_statements (h : statements n b = some ys) : StartsAfresh b := by
  cases b with
  | nil => exact ⟨rfl, rfl⟩
  | cons x b =>
    cases x with
    | mark c joined => exact ⟨rfl, rfl⟩
    | quoted c joined => exact ⟨rfl, rfl⟩
    | word w joined =>
      obtain ⟨m, r, ys, rfl, hr, -⟩ := statements_cons h
      have hne : ¬(w = "else".toList ∨ w = "catch".toList) := by
        rintro (rfl | rfl)
        · cases hr
        · cases hr
      exact ⟨if_neg fun hw => hne (.inl hw), if_neg fun hw => hne (.inr hw)⟩

theorem take_append_sub {r : List Symbol} :
    (a ++ b).take ((a ++ b).length - (r ++ b).length) = a.take (a.length - r.length) := by
  rw [length_append, length_append, Nat.add_sub_add_right]
  exact take_append_of_le_length (Nat.sub_le _ _)

theorem statements_mono (hnm : n ≤ m) (h : statements n b = some ys) : statements m b = some ys := by
  induction n generalizing m b ys with
  | zero =>
    cases b with
    | nil => cases m <;> exact h
    | cons x b => cases h
  | succ n ih =>
    cases b with
    | nil => cases m <;> exact h
    | cons x b =>
      obtain ⟨_, r, zs, ⟨⟩, hr, hzs, rfl⟩ := statements_cons h
      cases m with
      | zero => omega
      | succ m =>
        have hread := ((Extends.statement hnm).reads hr).2 [] ⟨rfl, rfl⟩
        rw [append_nil, append_nil] at hread
        rw [statements, hread, Option.bind_some, ih (by omega) hzs]
        rfl

theorem statements_append (ha : statements n a = some xs) (hb : statements m b = some ys) :
    statements (n + m) (a ++ b) = some (xs ++ ys) := by
  induction n generalizing a xs with
  | zero =>
    cases a with
    | nil =>
      cases ha
      rwa [Nat.zero_add]
    | cons x a => cases ha
  | succ n ih =>
    cases a with
    | nil =>
      cases ha
      exact statements_mono (by omega) hb
    | cons x a =>
      obtain ⟨_, r, zs, ⟨⟩, hr, hzs, rfl⟩ := statements_cons ha
      have hread := ((Extends.statement (Nat.le_add_right (n + 1) m)).reads hr).2 b
        (startsAfresh_of_statements hb)
      rw [Nat.add_right_comm] at hread ⊢
      rw [cons_append, statements, ← cons_append, hread, Option.bind_some, ih hzs, take_append_sub]
      rfl

theorem statementsOf?_eq_some_iff :
    statementsOf? t = some xs ↔ IsWhole t ∧ statements (symbolsOf t).length (symbolsOf t) = some xs := by
  unfold statementsOf?
  split
  · rename_i hwhole
    exact ⟨fun h => ⟨hwhole, h⟩, fun h => h.2⟩
  · rename_i hopen
    exact ⟨nofun, fun h => absurd h.1 hopen⟩

/-- **Code behind code.** -/
theorem statementsOf?_append {a b : Chars} (ha : statementsOf? a = some xs)
    (hb : statementsOf? b = some ys) : statementsOf? (a ++ '\n' :: b) = some (xs ++ ys) := by
  rw [statementsOf?_eq_some_iff] at ha hb ⊢
  rw [isWhole_append ha.1, symbolsOf_append ha.1, length_append]
  exact ⟨hb.1, statements_append ha.2 hb.2⟩

theorem statementsOf?_trimRight (h : statementsOf? t = some xs) :
    statementsOf? (trimRight t) = some xs := by
  rwa [statementsOf?, symbolsOf, readLine_trimRight (statementsOf?_eq_some_iff.1 h).1]

theorem statementsOf?_trimLeft (t : Chars) : statementsOf? (trimLeft t) = statementsOf? t := by
  rw [statementsOf?, statementsOf?, symbolsOf, symbolsOf, readLine_trimLeft]

theorem trimLeft_ne_semicolon {rest : Chars} (h : statementsOf? t = some xs) :
    trimLeft t ≠ ';' :: rest := by
  intro ht
  rw [← statementsOf?_trimLeft, ht] at h
  obtain ⟨ts, hts⟩ := symbolsOf_mark (c := ';') (Reader.isMark_of_mem rfl) rest
  have hread := (statementsOf?_eq_some_iff.1 h).2
  rw [hts] at hread
  obtain ⟨m, r, ys, -, hr, -⟩ := statements_cons hread
  cases hr

theorem statementsOf?_lineComment {gap : Chars} (hgap : ∀ c ∈ gap, isBlank c)
    (ht : ∀ c ∈ t, c ≠ '\n' ∧ c ≠ '\r') : statementsOf? (gap ++ '/' :: '/' :: t) = some [] := by
  have hread : readLine (gap ++ '/' :: '/' :: t) = (.code, {}) := by
    rw [readLine_gap hgap, readLine, Reader.read, Reader.run_lineComment ht]
    rfl
  rw [statementsOf?, symbolsOf, hread]
  rfl

end Obscura.Flow
