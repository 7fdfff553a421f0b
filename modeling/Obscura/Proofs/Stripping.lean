import Mathlib.Data.List.TakeWhile
import Obscura.Proofs.Characters
import Obscura.Proofs.Comments

/-
  The two ways to delete comments, against each other. Removal scans once and takes
  what comes first, a line comment or a block comment; stripping deletes all block
  comments and then all line comments of what is left. So stripping also sees block
  comments that open inside of a line comment. The main statement says where this
  makes a difference.

  Two different removals can by chance leave the same text. What is compared is
  therefore which characters stay: each character has a label, and a scan is run on
  the labels (`left`). Where the labels that stay are the same, so is the text.
-/

namespace Obscura.Layout

open Text List Rule

variable {a r s t : Chars} {c : Char} {p : Place} {ps : List Piece}

/-! ## Scans -/

namespace Rule

variable {R : Rule}

theorem cut_nil : R.cut [] = [] := by
  rw [cut]

theorem cut_found (h : R.find? s = some (a, r)) : R.cut s = .comment a :: R.cut r := by
  cases s with
  | nil =>
    obtain ⟨happend, hlength⟩ := R.append h
    rw [(append_eq_nil_iff.1 happend).1] at hlength
    cases hlength
  | cons c t =>
    rw [cut]
    split
    · rename_i h'
      rw [h, Option.some.injEq, Prod.mk.injEq] at h'
      rw [h'.1, h'.2]
    · rename_i h'
      rw [h] at h'
      cases h'

theorem cut_cons (h : R.find? (c :: t) = none) : R.cut (c :: t) = .code c :: R.cut t := by
  rw [cut]
  split
  · rename_i h'
    rw [h] at h'
    cases h'
  · rfl

end Rule

/-! ## What a scan leaves -/

section Left

variable {α : Type}

/-- The labels that stay when the comments among the pieces are deleted; each
character of the pieces has a label. -/
def left : List Piece → List α → List α
  | [], _ => []
  | .code _ :: ps, xs => xs.take 1 ++ left ps (xs.drop 1)
  | .comment t :: ps, xs => left ps (xs.drop t.length)

theorem left_sublist (xs : List α) : (left ps xs).Sublist xs := by
  fun_induction left ps xs with
  | case1 => exact nil_sublist _
  | case2 c ps xs ih =>
    have := (Sublist.refl (xs.take 1)).append ih
    rwa [take_append_drop] at this
  | case3 t ps xs ih => exact ih.trans (drop_sublist _ _)

theorem left_append {qs : List Piece} {us vs : List α} (h : us.length = (ps.flatMap Piece.text).length) :
    left (ps ++ qs) (us ++ vs) = left ps us ++ left qs vs := by
  induction ps generalizing us with
  | nil =>
    obtain rfl := eq_nil_of_length_eq_zero h
    rfl
  | cons p ps ih =>
    rw [flatMap_cons, length_append] at h
    cases p with
    | code c =>
      have hone : (Piece.code c).text.length = 1 := rfl
      cases us with
      | nil =>
        rw [hone, length_nil] at h
        omega
      | cons u us =>
        rw [hone, length_cons, Nat.add_comm 1, Nat.add_right_cancel_iff] at h
        exact congrArg (u :: ·) (ih h)
    | comment t =>
      have hlen : t.length ≤ us.length := by rw [h]; exact Nat.le_add_right _ _
      have hdrop : (us.drop t.length).length = (ps.flatMap Piece.text).length := by
        rw [length_drop, h]
        exact Nat.add_sub_cancel_left _ _
      rw [cons_append, left, left, drop_append_of_le_length hlen, ih hdrop]

theorem left_comment_append {us vs : List α}
    (h : us.length = t.length) : left (.comment t :: ps) (us ++ vs) = left ps vs := by
  rw [left, ← h, drop_left]

end Left

theorem left_text (ps : List Piece) :
    left ps (ps.flatMap Piece.text) = (ps.filter (!·.isComment)).flatMap Piece.text := by
  induction ps with
  | nil => rfl
  | cons x ps ih =>
    rw [flatMap_cons]
    cases x with
    | code c => exact congrArg (c :: ·) ih
    | comment t => exact (left_comment_append rfl).trans ih

theorem Rule.strip_eq_left (R : Rule) (s : Chars) : R.strip s = left (R.cut s) s := by
  rw [strip, ← left_text, flatMap_text_cut]

theorem stripBlocks_eq_left : stripBlocks s = left (block.cut s) s :=
  block.strip_eq_left s

/-- The labels that stripping leaves: those of block comments go first, and then those
of line comments in the text without block comments. -/
def leftByStripping {α : Type} (s : Chars) (xs : List α) : List α :=
  left (line.cut (stripBlocks s)) (left (block.cut s) xs)

/-- The labels that removal leaves. -/
def leftByRemoval {α : Type} (s : Chars) (xs : List α) : List α :=
  left (pieces s) xs

theorem stripComments_eq_left (s : Chars) : stripComments s = leftByStripping s s := by
  rw [stripComments, strip_eq_left, leftByStripping, ← stripBlocks_eq_left]

theorem step_inString (hp : p.inString = false) (hc : c ≠ '"') : (p.step c).inString = false := by
  simp [Place.step, hp, hc]

theorem over_inString (hp : p.inString = false) (ht : '"' ∉ t) : (p.over t).inString = false := by
  induction t generalizing p with
  | nil => exact hp
  | cons c t ih =>
    rw [mem_cons, not_or] at ht
    exact ih (step_inString hp (Ne.symm ht.1)) ht.2

theorem removeComments_eq_left (hq : '"' ∉ s) : (removeComments s).1 = leftByRemoval s s := by
  have hin (i : Int) : insideString s i = false := over_inString rfl fun h => hq (mem_of_mem_take h)
  have hleft := left_text (pieces s)
  rw [flatMap_text_pieces, ← flatMap_placed Piece.text (!·.isComment) 0] at hleft
  rw [(removeComments_eq s).2.2, leftByRemoval, hleft]
  simp only [isRemoved, hin, Bool.not_false, Bool.true_and]

theorem length_left {α β : Type} {xs : List α} {ys : List β}
    (h : xs.length = ys.length) : (left ps xs).length = (left ps ys).length := by
  induction ps generalizing xs ys with
  | nil => rfl
  | cons p ps ih =>
    cases p with
    | code c =>
      have hdrop : (xs.drop 1).length = (ys.drop 1).length := by
        rw [length_drop, length_drop, h]
      rw [left, left, length_append, length_append, length_take, length_take, h,
        ih hdrop]
    | comment t => exact ih (by rw [length_drop, length_drop, h])

/-! ## Comments at the front -/

theorem comment?_cons_of_ne (hc : c ≠ '/') : comment? (c :: t) = none := by
  rw [comment?, block?_cons fun h => hc h.1]
  exact line?_cons fun h => hc h.1

theorem comment?_eq_none (h : comment? s = none) : block? s = none ∧ line? s = none := by
  unfold comment? at h
  split at h
  · cases h
  · exact ⟨‹_›, h⟩

theorem comment?_eq_some (h : comment? s = some (a, r)) :
    block? s = some (a, r) ∨ line? s = some (a, r) := by
  unfold comment? at h
  split at h
  · rename_i p hp
    exact .inl (hp.trans h)
  · exact .inr h

/-- A line comment starts with two slashes and ends before the end of the line. -/
theorem line?_eq_some_iff : line? s = some (a, r) ↔ a ++ r = s ∧ ∃ w, a = '/' :: '/' :: w ∧
      (∀ c ∈ w, endsLineComment c = false) ∧ ∀ c, r.head? = some c → endsLineComment c := by
  constructor
  · intro h
    refine ⟨(line?_append h).1, ?_⟩
    fun_cases line? s with
    | case1 t =>
      simp only [line?, Option.some.injEq, Prod.mk.injEq] at h
      obtain ⟨rfl, rfl⟩ := h
      refine ⟨_, rfl, fun c hc => ?_, fun c hc => ?_⟩
      · simpa using mem_takeWhile_imp hc
      · simpa using dropWhile_stops hc
    | case2 h' => rw [line?] at h <;> simp_all
  · rintro ⟨rfl, w, rfl, hw, hr⟩
    have hin : ∀ c ∈ w, (!endsLineComment c) = true := fun c hc => by rw [hw c hc]; rfl
    have hout : ∀ c, r.head? = some c → (!endsLineComment c) = false := fun c hc => by rw [hr c hc]; rfl
    rw [cons_append, cons_append, line?, takeWhile_run hin hout, dropWhile_run hin hout]

/-! ## Block comments that run over a place -/

/-- The search for the end of a block comment in `a ++ r` goes on behind `a`, or it is the
search in `a`. -/
theorem closeBlock?_append_cases (a r : Chars) :
    (closeBlock? (a ++ r) = none ∧ closeBlock? a = none) ∨
      (∃ b q, closeBlock? (a ++ r) = some (b, q ++ r) ∧ closeBlock? a = some (b, q)) ∨
      ∃ b q, closeBlock? (a ++ r) = some (b, q) ∧ a.length < b.length := by
  induction a with
  | nil =>
    cases hr : closeBlock? r with
    | none => exact .inl ⟨hr, rfl⟩
    | some p => exact .inr (.inr ⟨p.1, p.2, hr, length_pos_of_ne_nil (closeBlock?_ne_nil hr)⟩)
  | cons c a ih =>
    by_cases hend : c = '*' ∧ (a ++ r).head? = some '/'
    · obtain ⟨rfl, hhead⟩ := hend
      cases a with
      | nil =>
        obtain ⟨q, rfl⟩ := head?_eq_some_iff.1 hhead
        exact .inr (.inr ⟨['*', '/'], q, rfl, by decide⟩)
      | cons d a =>
        obtain rfl : d = '/' := Option.some.inj hhead
        exact .inr (.inl ⟨['*', '/'], a, rfl, rfl⟩)
    · have hend' : ¬(c = '*' ∧ a.head? = some '/') := by
        rintro ⟨hc, ha⟩
        refine hend ⟨hc, ?_⟩
        rw [head?_append, ha]
        rfl
      rw [cons_append, closeBlock?_cons hend, closeBlock?_cons hend']
      rcases ih with ⟨h, h'⟩ | ⟨b, q, h, h'⟩ | ⟨b, q, h, hlt⟩
      · exact .inl ⟨by rw [h]; rfl, by rw [h']; rfl⟩
      · exact .inr (.inl ⟨c :: b, q, by rw [h]; rfl, by rw [h']; rfl⟩)
      · exact .inr (.inr ⟨c :: b, q, by rw [h]; rfl, Nat.succ_lt_succ hlt⟩)

theorem block?_append_cases (ha : a ≠ []) (r : Chars) : (block? (a ++ r) = none ∧ block? a = none) ∨
      (∃ b q, block? (a ++ r) = some (b, q ++ r) ∧ block? a = some (b, q)) ∨
      ∃ b q, block? (a ++ r) = some (b, q) ∧ a.length < b.length := by
  by_cases hopen : ∃ t, a = '/' :: '*' :: t
  · obtain ⟨t, rfl⟩ := hopen
    rw [cons_append, cons_append, block?, block?]
    rcases closeBlock?_append_cases t r with ⟨h, h'⟩ | ⟨b, q, h, h'⟩ | ⟨b, q, h, hlt⟩
    · exact .inl ⟨by rw [h]; rfl, by rw [h']; rfl⟩
    · exact .inr (.inl ⟨'/' :: '*' :: b, q, by rw [h]; rfl, by rw [h']; rfl⟩)
    · exact .inr (.inr ⟨'/' :: '*' :: b, q, by rw [h]; rfl, Nat.succ_lt_succ (Nat.succ_lt_succ hlt)⟩)
  · have hnone : block? a = none := by
      rw [block?]
      exact fun t ht => hopen ⟨t, ht⟩
    cases h : block? (a ++ r) with
    | none => exact .inl ⟨rfl, hnone⟩
    | some p =>
      -- only the first character of the comment stands in `a`
      refine .inr (.inr ⟨p.1, p.2, rfl, ?_⟩)
      obtain ⟨happend, hlen⟩ := block?_append h
      obtain ⟨c, a, rfl⟩ := exists_cons_of_ne_nil ha
      cases a with
      | nil => exact hlen
      | cons d a =>
        have hd : block? (c :: d :: (a ++ r)) = none := by
          rw [block?]
          intro t ht
          cases ht
          exact hopen ⟨a, rfl⟩
        rw [cons_append, cons_append, hd] at h
        cases h

/-- No block comment that opens in `a` runs on into `r`. -/
def Sealed (a r : Chars) : Prop :=
  block.cut (a ++ r) = block.cut a ++ block.cut r

theorem sealed_nil : Sealed a [] := by
  rw [Sealed, append_nil, cut_nil, append_nil]

theorem nil_sealed : Sealed [] r := by
  rw [Sealed, cut_nil]
  rfl

theorem Sealed.stripBlocks (h : Sealed a r) : stripBlocks (a ++ r) = stripBlocks a ++ stripBlocks r := by
  rw [stripBlocks_eq_left, h, left_append (by rw [flatMap_text_cut]), ← stripBlocks_eq_left,
    ← stripBlocks_eq_left]

theorem Sealed.left {α : Type} (h : Sealed a r) {us vs : List α} (hus : us.length = a.length) :
    left (block.cut (a ++ r)) (us ++ vs) =
      left (block.cut a) us ++ left (block.cut r) vs := by
  rw [h, left_append (by rw [hus, flatMap_text_cut])]

/-- A block comment that runs on takes the first character behind `a` with it. -/
theorem not_mem_left_of_not_sealed {α : Type} {d : Char} {us vs : List α} {v : α}
    (hus : us.length = a.length) (hd : (us ++ v :: vs).Nodup) (h : ¬ Sealed a (d :: r)) :
    v ∉ left (block.cut (a ++ d :: r)) (us ++ v :: vs) := by
  induction hn : a.length using Nat.strongRecOn generalizing a us with
  | ind n ih =>
    subst hn
    cases a with
    | nil => exact absurd nil_sealed h
    | cons c a =>
      rcases block?_append_cases (cons_ne_nil c a) (d :: r) with
        ⟨hb, hb'⟩ | ⟨b, q, hb, hb'⟩ | ⟨b, q, hb, hlt⟩
      · obtain ⟨u, us, rfl⟩ := exists_cons_of_length_pos (l := us) (by rw [hus]; simp)
        rw [cons_append] at hb
        rw [Sealed, cons_append, cut_cons (R := .block) hb, cut_cons (R := .block) hb',
          cons_append, cons.injEq, and_iff_right rfl] at h
        rw [cons_append, cut_cons (R := .block) hb]
        obtain ⟨hu, hd⟩ := nodup_cons.1 hd
        have hrest := ih a.length (by simp) (by simpa using hus) hd h rfl
        intro hv
        rcases mem_cons.1 hv with rfl | hv
        · exact hu (by simp)
        · exact hrest hv
      · obtain ⟨happend, hlen⟩ := block?_append hb'
        rw [Sealed, cut_found (R := .block) hb, cut_found (R := .block) hb',
          cons_append, cons.injEq, and_iff_right rfl] at h
        have hlength : b.length + q.length = us.length := by
          rw [hus, ← happend, length_append]
        have hsplit : us ++ v :: vs = us.take b.length ++ (us.drop b.length ++ v :: vs) := by
          rw [← append_assoc, take_append_drop]
        rw [hsplit] at hd
        rw [cut_found (R := .block) hb, hsplit,
          left_comment_append (by rw [length_take]; omega)]
        refine ih q.length ?_ ?_ (nodup_append.1 hd).2.1 h rfl
        · rw [← hus]
          omega
        · rw [length_drop]
          omega
      · obtain ⟨k, hk⟩ := Nat.exists_eq_add_of_lt (hus ▸ hlt)
        have hv : v ∉ vs := (nodup_cons.1 (nodup_append.1 hd).2.1).1
        have hdrop : (us ++ v :: vs).drop b.length = vs.drop k := by
          rw [hk, Nat.add_assoc, ← drop_drop, drop_left]
          rfl
        rw [cut_found (R := .block) hb, left, hdrop]
        intro hmem
        exact hv (mem_of_mem_drop ((left_sublist _).subset hmem))

/-! ## One step of both -/

section Steps

variable {α : Type} {x : α} {xs : List α}

theorem stripBlocks_cons (h : block? (c :: t) = none) : stripBlocks (c :: t) = c :: stripBlocks t := by
  rw [stripBlocks_eq_left, cut_cons (R := .block) h, stripBlocks_eq_left]
  rfl

theorem stripBlocks_nil : stripBlocks [] = [] := by
  rw [stripBlocks_eq_left, cut_nil]
  rfl

theorem stripBlocks_found (h : block? s = some (a, r)) : stripBlocks s = stripBlocks r := by
  rw [stripBlocks_eq_left, cut_found (R := .block) h, ← (block?_append h).1,
    left_comment_append rfl, stripBlocks_eq_left]

theorem head?_stripBlocks (hr : ∀ c, r.head? = some c → endsLineComment c)
    (hc : (stripBlocks r).head? = some c) : endsLineComment c := by
  cases r with
  | nil =>
    rw [stripBlocks_nil] at hc
    cases hc
  | cons d r =>
    have hd := hr d rfl
    have hne : d ≠ '/' := by
      rintro rfl
      cases hd
    rw [stripBlocks_cons (block?_cons fun h => hne h.1)] at hc
    exact Option.some.inj hc ▸ hd

theorem leftByStripping_block (h : block? s = some (a, r)) {us vs : List α}
    (hus : us.length = a.length) : leftByStripping s (us ++ vs) = leftByStripping r vs := by
  rw [leftByStripping, stripBlocks_found h, cut_found (R := .block) h, left_comment_append hus,
    leftByStripping]

theorem leftByStripping_code (h : comment? (c :: t) = none) :
    leftByStripping (c :: t) (x :: xs) = x :: leftByStripping t xs := by
  obtain ⟨hblock, hline⟩ := comment?_eq_none h
  have hnone : line? (c :: stripBlocks t) = none := by
    by_cases hc : c = '/'
    · subst hc
      -- a slash behind this one would open a line comment, also as the start of a block comment
      refine line?_cons fun ⟨_, hhead⟩ => ?_
      cases t with
      | nil =>
        rw [stripBlocks_nil] at hhead
        cases hhead
      | cons d t =>
        have hd : d ≠ '/' := by
          rintro rfl
          cases hline
        rw [stripBlocks_cons (block?_cons fun h => hd h.1)] at hhead
        exact hd (Option.some.inj hhead)
    · exact line?_cons fun h => hc h.1
  rw [leftByStripping, stripBlocks_cons hblock, cut_cons (R := .block) hblock,
    cut_cons (R := .line) hnone]
  rfl

theorem leftByRemoval_comment (h : comment? s = some (a, r)) {us vs : List α}
    (hus : us.length = a.length) : leftByRemoval s (us ++ vs) = leftByRemoval r vs := by
  rw [leftByRemoval, pieces, cut_found (R := .comment) h, left_comment_append hus,
    ← pieces, leftByRemoval]

theorem leftByRemoval_code (h : comment? (c :: t) = none) :
    leftByRemoval (c :: t) (x :: xs) = x :: leftByRemoval t xs := by
  rw [leftByRemoval, pieces, cut_cons (R := .comment) h, leftByRemoval, pieces]
  rfl

end Steps

/-! ## Line comments that open block comments -/

/-- Without the block comments in it, the line comment `a` before the text `r` is still one
and ends where it did. -/
structure Harmless (a r : Chars) : Prop where
  ends : Sealed a r
  starts : ∃ w, stripBlocks a = '/' :: '/' :: w

/-- No line comment of a text has block comments in it that do harm. -/
def Untangled (s : Chars) : Prop :=
  ∀ ps a qs, pieces s = ps ++ .comment a :: qs → (∃ w, a = '/' :: '/' :: w) →
    Harmless a (qs.flatMap Piece.text)

theorem untangled_cons {x : Piece} (h : pieces s = x :: pieces r) :
    Untangled s ↔ (∀ a, x = .comment a → (∃ w, a = '/' :: '/' :: w) → Harmless a r) ∧ Untangled r := by
  constructor
  · intro hs
    refine ⟨fun a hx ha => ?_, fun ps a qs hr ha => hs (x :: ps) a qs (by rw [h, hr]; rfl) ha⟩
    have := hs [] a (pieces r) (by rw [h, hx]; rfl) ha
    rwa [flatMap_text_pieces] at this
  · rintro ⟨hx, hr⟩ ps a qs hs ha
    rw [h] at hs
    cases ps with
    | nil =>
      obtain ⟨hxa, rfl⟩ := cons.inj hs
      rw [flatMap_text_pieces]
      exact hx a hxa ha
    | cons p ps => exact hr ps a qs (cons.inj hs).2 ha

theorem untangled_found (h : comment? s = some (a, r)) :
    Untangled s ↔ ((∃ w, a = '/' :: '/' :: w) → Harmless a r) ∧ Untangled r := by
  rw [untangled_cons (x := .comment a) (r := r)]
  · refine and_congr_left fun _ => ⟨fun hx => hx a rfl, ?_⟩
    rintro hx b ⟨⟩
    exact hx
  · rw [pieces, cut_found (R := .comment) h, pieces]

theorem untangled_code (h : comment? (c :: t) = none) : Untangled (c :: t) ↔ Untangled t := by
  rw [untangled_cons (x := .code c) (r := t)]
  · exact and_iff_right fun a ha => nomatch ha
  · rw [pieces, cut_cons (R := .comment) h, pieces]

section Agreement

variable {α : Type}

theorem leftByStripping_line (h : line? (a ++ r) = some (a, r)) (hs : Harmless a r)
    {us vs : List α} (hus : us.length = a.length) :
    leftByStripping (a ++ r) (us ++ vs) = leftByStripping r vs := by
  obtain ⟨-, w, rfl, hw, hr⟩ := line?_eq_some_iff.1 h
  obtain ⟨w', hw'⟩ := hs.starts
  have hsub : (stripBlocks ('/' :: '/' :: w)).Sublist ('/' :: '/' :: w) := by
    rw [stripBlocks_eq_left]
    exact left_sublist _
  have hin : ∀ c ∈ w', endsLineComment c = false := by
    intro c hc
    rw [hw'] at hsub
    exact hw c ((hsub.of_cons_cons.of_cons_cons).subset hc)
  have hline : line? (stripBlocks ('/' :: '/' :: w) ++ stripBlocks r) =
      some (stripBlocks ('/' :: '/' :: w), stripBlocks r) :=
    line?_eq_some_iff.2 ⟨rfl, w', hw', hin, fun c hc => head?_stripBlocks hr hc⟩
  have hlen : (left (block.cut ('/' :: '/' :: w)) us).length =
      (stripBlocks ('/' :: '/' :: w)).length := by
    rw [stripBlocks_eq_left, length_left hus]
  rw [leftByStripping, hs.ends.stripBlocks, hs.ends.left hus, cut_found (R := .line) hline,
    left_comment_append hlen, leftByStripping]

theorem exists_labels (h : a ++ r = s) {xs : List α} (hx : xs.length = s.length) :
    ∃ us vs, xs = us ++ vs ∧ us.length = a.length ∧ vs.length = r.length := by
  rw [← h, length_append] at hx
  refine ⟨xs.take a.length, xs.drop a.length, (take_append_drop _ _).symm, ?_, ?_⟩
  · rw [length_take]
    omega
  · rw [length_drop]
    omega

theorem left_of_nil (xs : List α) : leftByStripping [] xs = [] ∧ leftByRemoval [] xs = [] := by
  constructor
  · rw [leftByStripping, stripBlocks_nil, cut_nil, left]
  · rw [leftByRemoval, pieces, cut_nil, left]

/-- Where no line comment is tangled with block comments, the same characters stay. -/
theorem leftByStripping_eq (h : Untangled s) {xs : List α} (hx : xs.length = s.length) :
    leftByStripping s xs = leftByRemoval s xs := by
  fun_induction cut .comment s generalizing xs with
  | case1 => rw [(left_of_nil xs).1, (left_of_nil xs).2]
  | case2 c t a r hfound ih =>
    obtain ⟨us, vs, rfl, hus, hvs⟩ := exists_labels (comment?_append hfound).1 hx
    obtain ⟨hlocal, hr⟩ := (untangled_found hfound).1 h
    rw [leftByRemoval_comment hfound hus, ← ih hr hvs]
    rcases comment?_eq_some hfound with hblock | hline
    · exact leftByStripping_block hblock hus
    · obtain ⟨hs, w, hw, -⟩ := line?_eq_some_iff.1 hline
      rw [← hs] at hline ⊢
      exact leftByStripping_line hline (hlocal ⟨w, hw⟩) hus
  | case3 c t hnone ih =>
    obtain ⟨x, xs, rfl⟩ := exists_cons_of_length_pos (l := xs) (by rw [hx]; simp)
    rw [leftByStripping_code hnone, leftByRemoval_code hnone,
      ih ((untangled_code hnone).1 h) (by simpa using hx)]

theorem harmless_of_left (h : line? (a ++ r) = some (a, r)) {us vs : List α}
    (hus : us.length = a.length) (hvs : vs.length = r.length) (hd : (us ++ vs).Nodup)
    (heq : leftByStripping (a ++ r) (us ++ vs) = leftByRemoval r vs) : Harmless a r := by
  obtain ⟨-, w, rfl, -, hr⟩ := line?_eq_some_iff.1 h
  have hends : Sealed ('/' :: '/' :: w) r := by
    by_contra hnot
    cases r with
    | nil => exact hnot sealed_nil
    | cons d r =>
      obtain ⟨v, vs, rfl⟩ := exists_cons_of_length_pos (l := vs) (by rw [hvs]; simp)
      have hne : d ≠ '/' := by
        rintro rfl
        cases hr '/' rfl
      refine not_mem_left_of_not_sealed hus hd hnot ?_
      rw [leftByRemoval_code (comment?_cons_of_ne hne), leftByStripping] at heq
      exact (left_sublist _).subset (heq ▸ mem_cons_self)
  refine ⟨hends, ?_⟩
  have hfirst : block? ('/' :: '/' :: w) = none := by
    rw [block?]
    intro t ht
    cases ht
  rw [stripBlocks_cons hfirst]
  by_contra hnot
  obtain ⟨u, us, rfl⟩ := exists_cons_of_length_pos (l := us) (by rw [hus]; simp)
  -- the first slash stays as code
  have hnone : line? ('/' :: (stripBlocks ('/' :: w) ++ stripBlocks r)) = none := by
    refine line?_cons fun h => ?_
    obtain ⟨-, hhead⟩ := h
    rw [head?_append] at hhead
    cases hq : stripBlocks ('/' :: w) with
    | nil =>
      rw [hq] at hhead
      cases head?_stripBlocks hr hhead
    | cons c q =>
      rw [hq] at hhead hnot
      obtain rfl : c = '/' := Option.some.inj hhead
      exact hnot ⟨q, rfl⟩
  have hmem : u ∈ leftByStripping (('/' :: '/' :: w) ++ r) ((u :: us) ++ vs) := by
    have hcut : block.cut ('/' :: '/' :: w) = .code '/' :: block.cut ('/' :: w) :=
      cut_cons hfirst
    rw [leftByStripping, hends.stripBlocks, hends.left hus, stripBlocks_cons hfirst, hcut,
      cons_append, cut_cons (R := .line) hnone]
    exact mem_cons_self
  rw [heq] at hmem
  exact (nodup_cons.1 hd).1 (mem_append_right _ ((left_sublist _).subset hmem))

/-- Where the same characters stay, no line comment is tangled with block comments. -/
theorem untangled_of_left {xs : List α} (hx : xs.length = s.length) (hd : xs.Nodup)
    (h : leftByStripping s xs = leftByRemoval s xs) : Untangled s := by
  fun_induction cut .comment s generalizing xs with
  | case1 =>
    intro ps a qs hs
    rw [pieces, cut_nil] at hs
    exact absurd hs (append_ne_nil_of_right_ne_nil _ (cons_ne_nil _ _)).symm
  | case2 c t a r hfound ih =>
    obtain ⟨us, vs, rfl, hus, hvs⟩ := exists_labels (comment?_append hfound).1 hx
    have hvd := (nodup_append.1 hd).2.1
    rw [leftByRemoval_comment hfound hus] at h
    rcases comment?_eq_some hfound with hblock | hline
    · rw [leftByStripping_block hblock hus] at h
      refine (untangled_found hfound).2 ⟨?_, ih hvs hvd h⟩
      rintro ⟨w, rfl⟩
      rw [← (block?_append hblock).1] at hblock
      cases hblock
    · obtain ⟨hs, w, hw, -⟩ := line?_eq_some_iff.1 hline
      rw [← hs] at hline h
      have hharmless := harmless_of_left hline hus hvs hd h
      rw [leftByStripping_line hline hharmless hus] at h
      exact (untangled_found hfound).2 ⟨fun _ => hharmless, ih hvs hvd h⟩
  | case3 c t hnone ih =>
    obtain ⟨x, xs, rfl⟩ := exists_cons_of_length_pos (l := xs) (by rw [hx]; simp)
    rw [leftByStripping_code hnone, leftByRemoval_code hnone] at h
    exact (untangled_code hnone).2
      (ih (by simpa using hx) (nodup_cons.1 hd).2 (cons.inj h).2)

end Agreement

/-- **Where stripping agrees with removal.** In a text without double quotes both leave the
same characters exactly if every line comment, without the block comments that are found in
it from left to right, is still a line comment that ends where it did. Then they give the
same text. -/
theorem stripComments_agrees_iff {s : Chars} (hq : '"' ∉ s) :
    (stripComments s = leftByStripping s s ∧ (removeComments s).1 = leftByRemoval s s) ∧
      (leftByStripping s (List.range s.length) = leftByRemoval s (List.range s.length) ↔
        Untangled s) ∧
      (Untangled s → stripComments s = (removeComments s).1) := by
  refine ⟨⟨stripComments_eq_left s, removeComments_eq_left hq⟩, ⟨?_, ?_⟩, ?_⟩
  · exact untangled_of_left List.length_range List.nodup_range
  · exact fun h => leftByStripping_eq h List.length_range
  · intro h
    rw [stripComments_eq_left, removeComments_eq_left hq]
    exact leftByStripping_eq h rfl

/-- A block comment that opens and closes in a line comment goes with it. -/
theorem stripComments_agrees_closed :
    '"' ∉ "a; // b /* c */ d\n/* e */f".toList ∧ Untangled "a; // b /* c */ d\n/* e */f".toList ∧
      stripComments "a; // b /* c */ d\n/* e */f".toList =
        (removeComments "a; // b /* c */ d\n/* e */f".toList).1 := by
  have hq : '"' ∉ "a; // b /* c */ d\n/* e */f".toList := by decide
  obtain ⟨-, hiff, hagree⟩ := stripComments_agrees_iff hq
  have hs : Untangled "a; // b /* c */ d\n/* e */f".toList := hiff.1 (by decide +kernel)
  exact ⟨hq, hs, hagree hs⟩

/-- A block comment that opens in a line comment runs on to the end of the next one and takes
the code between them with it; one that opens with the second slash leaves the first slash
behind. -/
theorem stripComments_loses_code :
    (stripComments "// /*\nuint a;\n/* b */uint c;".toList = [] ∧
      (removeComments "// /*\nuint a;\n/* b */uint c;".toList).1 = "\nuint a;\nuint c;".toList) ∧
    (stripComments "//**/x".toList = "/x".toList ∧ (removeComments "//**/x".toList).1 = []) := by
  decide +kernel

end Obscura.Layout
