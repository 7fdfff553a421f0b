import Mathlib.Data.List.Perm.Basic
import Obscura.Layout.Comment
import Obscura.Layout.Token
import Obscura.Literal.Lexeme
import Obscura.Proofs.Patch

/-
  When exactly the comments of a text are removed. Comment removal looks for
  stretches that have the form of a comment, from left to right and with no regard
  to string literals (`found`), and keeps those with an odd number of double quotes
  before them. Beside it stands the lexical scan of the language (`scan?`), which
  passes over literals as a whole.

  Both cut the same text, and at one place both see the same comment. So a comment
  of the scan is found, unless a stretch found before it runs over its start; and
  a stretch is found in a literal or in a comment of the scan, never in code. From
  these two facts alone follows where the outcomes agree.
-/

namespace Obscura.Layout

open Text List

variable {c m n : Removal} {i p : Nat} {s : Chars}

/-! ## The lexical scan -/

/-- A fragment of a text: a character of code, a string literal or a comment. -/
inductive Fragment where
  | code (c : Char)
  | literal (text : Chars)
  | comment (text : Chars)
deriving Repr, DecidableEq

variable {fs : List Fragment} {u v : Chars} {x : Piece} {xs : List Piece}

def Fragment.text : Fragment → Chars
  | .code c => [c]
  | .literal t => t
  | .comment t => t

def Fragment.isLiteral : Fragment → Bool
  | .literal _ => true
  | _ => false

def Fragment.isComment : Fragment → Bool
  | .comment _ => true
  | _ => false

/-- Cut a text into fragments, if every literal and every block comment in it is
closed. In a literal a backslash takes any next character with it. -/
def scan? (s : Chars) : Option (List Fragment) :=
  match s with
  | [] => some []
  | c :: t =>
    if isQuote c then
      match _h : Literal.closing? (fun _ => true) c t with
      | some (a, r) => (scan? r).map (.literal (c :: a) :: ·)
      | none => none
    else
      match _h : comment? (c :: t) with
      | some (a, r) => (scan? r).map (.comment a :: ·)
      | none => if c = '/' ∧ t.head? = some '*' then none else (scan? t).map (.code c :: ·)
termination_by s.length
decreasing_by
  · have := congrArg List.length (Literal.closing?_append _h)
    simp only [length_append, length_cons] at this ⊢
    omega
  · have := length_of_append (comment?_append _h)
    omega
  · simp

def withoutComments (fs : List Fragment) : Chars :=
  (fs.filter (!·.isComment)).flatMap Fragment.text

/-! ## Places in a text that is cut -/

section

variable {α : Type} {text : α → Chars}

/-- The parts of a text that is cut, each with its position; the first has the
position `p`. -/
def placed (text : α → Chars) (p : Nat) : List α → List (Nat × α)
  | [] => []
  | x :: xs => (p, x) :: placed text (p + (text x).length) xs

def stretch (text : α → Chars) (x : Nat × α) : Removal :=
  ⟨x.1, x.1 + (text x.2).length, text x.2⟩

def stretches (text : α → Chars) (kind : α → Bool) (xs : List α) : List Removal :=
  ((placed text 0 xs).filter fun x => kind x.2).map (stretch text)

/-- The position lies in the stretch. -/
def Removal.Covers (m : Removal) (i : Nat) : Prop :=
  m.start ≤ i ∧ i < m.stop

instance (m : Removal) (i : Nat) : Decidable (m.Covers i) :=
  inferInstanceAs (Decidable (m.start ≤ i ∧ i < m.stop))

variable {xs : List α}

theorem mem_stretches {kind : α → Bool} : m ∈ stretches text kind xs ↔
      ∃ x ∈ placed text 0 xs, kind x.2 ∧ stretch text x = m := by
  simp only [stretches, mem_map, mem_filter, and_assoc]

theorem le_of_mem_placed {x : Nat × α} (hx : x ∈ placed text p xs) : p ≤ x.1 := by
  induction xs generalizing p with
  | nil => simp [placed] at hx
  | cons y ys ih =>
    rcases mem_cons.1 hx with rfl | hx
    · exact Nat.le_refl _
    · exact Nat.le_trans (Nat.le_add_right _ _) (ih hx)

theorem placed_eq {x y : Nat × α} (hx : x ∈ placed text p xs)
    (hy : y ∈ placed text p xs) (hxi : (stretch text x).Covers i)
    (hyi : (stretch text y).Covers i) : x = y := by
  induction xs generalizing p with
  | nil => simp [placed] at hx
  | cons z zs ih =>
    rcases mem_cons.1 hx with rfl | hx' <;> rcases mem_cons.1 hy with rfl | hy'
    · rfl
    · have := le_of_mem_placed hy'
      simp only [Removal.Covers, stretch] at hxi hyi
      omega
    · have := le_of_mem_placed hx'
      simp only [Removal.Covers, stretch] at hxi hyi
      omega
    · exact ih hx' hy'

theorem exists_placed (hp : p ≤ i) (hi : i < p + (xs.flatMap text).length) :
    ∃ x ∈ placed text p xs, (stretch text x).Covers i := by
  induction xs generalizing p with
  | nil =>
    simp only [flatMap_nil, length_nil] at hi
    omega
  | cons y ys ih =>
    by_cases hy : i < p + (text y).length
    · exact ⟨(p, y), mem_cons_self, hp, hy⟩
    · rw [flatMap_cons, length_append] at hi
      obtain ⟨x, hx, hxi⟩ := ih (Nat.le_of_not_lt hy) (by omega)
      exact ⟨x, mem_cons_of_mem _ hx, hxi⟩

theorem pairwise_placed (xs : List α) :
    (placed text p xs).Pairwise fun x y => (stretch text x).stop ≤ (stretch text y).start := by
  induction xs generalizing p with
  | nil => exact .nil
  | cons x xs ih => exact .cons (fun y hy => le_of_mem_placed hy) (ih)

theorem pairwise_stretches {kind : α → Bool}
    (h : ∀ m ∈ stretches text kind xs, m.Covers m.start) :
    (stretches text kind xs).Pairwise fun m n => m.start < n.start := by
  have hstop : (stretches text kind xs).Pairwise fun m n => m.stop ≤ n.start :=
    pairwise_map.2 ((pairwise_placed xs).filter _)
  exact hstop.imp_of_mem fun hm _ hle => Nat.lt_of_lt_of_le (h _ hm).2 hle

theorem stretches_eq_of_covers {kind : α → Bool}
    (hm : m ∈ stretches text kind xs) (hn : n ∈ stretches text kind xs) (hmi : m.Covers i)
    (hni : n.Covers i) : m = n := by
  obtain ⟨x, hx, -, rfl⟩ := mem_stretches.1 hm
  obtain ⟨y, hy, -, rfl⟩ := mem_stretches.1 hn
  rw [placed_eq hx hy hmi hni]

/-- Where a cut proceeds part by part, the rest of the text behind any number of
parts is cut into the rest of the parts. -/
theorem exists_cut (Cut : Chars → List α → Prop)
    (hstep : ∀ s x xs, Cut s (x :: xs) → ∃ r, s = text x ++ r ∧ Cut r xs) {s : Chars}
    (hs : Cut s xs) {p : Nat} {x : Nat × α} (hx : x ∈ placed text p xs) :
    ∃ rest, Cut (s.drop (x.1 - p)) (x.2 :: rest) := by
  induction xs generalizing s p with
  | nil => simp [placed] at hx
  | cons y ys ih =>
    rcases mem_cons.1 hx with rfl | hx
    · exact ⟨ys, by rwa [Nat.sub_self, drop_zero]⟩
    · obtain ⟨r, rfl, hr⟩ := hstep _ _ _ hs
      obtain ⟨rest, hrest⟩ := ih hr hx
      have hle := le_of_mem_placed hx
      refine ⟨rest, ?_⟩
      rwa [drop_append, drop_of_length_le (by omega), nil_append,
        Nat.sub_sub]

end

/-! ## One place in the two scans -/

/-- The stretch is the comment at its place. -/
def IsCommentAt (s : Chars) (m : Removal) : Prop :=
  m.stop = m.start + m.text.length ∧ ∃ r, comment? (s.drop m.start) = some (m.text, r)

theorem IsCommentAt.covers (h : IsCommentAt s m) : m.Covers m.start := by
  obtain ⟨hstop, r, hr⟩ := h
  have := (comment?_append hr).2
  exact ⟨Nat.le_refl _, by omega⟩

theorem IsCommentAt.lt_length (h : IsCommentAt s m) : m.start < s.length := by
  obtain ⟨-, r, hr⟩ := h
  have := length_of_append (comment?_append hr)
  rw [length_drop] at this
  omega

/-- Code takes one character, so that no comment starts where code stands. -/
theorem IsCommentAt.ne_none (h : IsCommentAt s m)
    (hi : i ≤ m.start) (hm : m.start < i + 1) : comment? (s.drop i) ≠ none := by
  obtain ⟨-, r, hr⟩ := h
  rw [Nat.le_antisymm hi (Nat.le_of_lt_succ hm), hr]
  exact Option.some_ne_none _

theorem IsCommentAt.eq (hm : IsCommentAt s m)
    (hn : IsCommentAt s n) (h : m.start = n.start) : m = n := by
  obtain ⟨hmstop, r, hmr⟩ := hm
  obtain ⟨hnstop, r', hnr⟩ := hn
  rw [h, hnr, Option.some.injEq, Prod.mk.injEq] at hmr
  cases m with
  | mk a b t =>
    cases n with
    | mk a' b' t' =>
      simp only at h hmr hmstop hnstop
      rw [hmstop, hnstop, h, hmr.1]

theorem pieces_cons {x : Piece} {xs : List Piece} (h : pieces s = x :: xs) :
    (∃ t r, x = .comment t ∧ comment? s = some (t, r) ∧ pieces r = xs) ∨
      ∃ c r, x = .code c ∧ s = c :: r ∧ comment? s = none ∧ pieces r = xs := by
  unfold pieces Rule.cut at h
  split at h
  · simp at h
  · split at h
    · rename_i c t a r hr
      rw [cons.injEq] at h
      exact .inl ⟨a, r, h.1.symm, hr, h.2⟩
    · rename_i c t hr
      rw [cons.injEq] at h
      exact .inr ⟨c, t, h.1.symm, rfl, hr, h.2⟩

theorem pieces_step (s : Chars) (x : Piece) (xs : List Piece) (h : pieces s = x :: xs) :
    ∃ r, s = x.text ++ r ∧ pieces r = xs := by
  rcases pieces_cons h with ⟨t, r, rfl, hr, hxs⟩ | ⟨c, r, rfl, rfl, -, hxs⟩
  · exact ⟨r, (comment?_append hr).1.symm, hxs⟩
  · exact ⟨r, rfl, hxs⟩

theorem scan?_cons {x : Fragment} {xs : List Fragment} (h : scan? s = some (x :: xs)) :
    (∃ q a r, x = .literal (q :: a) ∧ s = q :: (a ++ r) ∧ scan? r = some xs) ∨
      (∃ t r, x = .comment t ∧ comment? s = some (t, r) ∧ scan? r = some xs) ∨
      ∃ c r, x = .code c ∧ s = c :: r ∧ comment? s = none ∧ scan? r = some xs := by
  unfold scan? at h
  split at h
  · simp at h
  split at h
  · split at h
    · rename_i q t _ a r hr
      obtain ⟨fs, hfs, he⟩ := Option.map_eq_some_iff.1 h
      rw [cons.injEq] at he
      exact .inl ⟨q, a, r, he.1.symm, by rw [Literal.closing?_append hr], he.2 ▸ hfs⟩
    · simp at h
  · split at h
    · rename_i a r hr
      obtain ⟨fs, hfs, he⟩ := Option.map_eq_some_iff.1 h
      rw [cons.injEq] at he
      exact .inr (.inl ⟨a, r, he.1.symm, hr, he.2 ▸ hfs⟩)
    · rename_i c t _ hr
      split at h
      · simp at h
      · obtain ⟨fs, hfs, he⟩ := Option.map_eq_some_iff.1 h
        rw [cons.injEq] at he
        exact .inr (.inr ⟨c, t, he.1.symm, rfl, hr, he.2 ▸ hfs⟩)

theorem scan?_step (s : Chars) (x : Fragment) (xs : List Fragment)
    (h : scan? s = some (x :: xs)) : ∃ r, s = x.text ++ r ∧ scan? r = some xs := by
  rcases scan?_cons h with
    ⟨q, a, r, rfl, rfl, hxs⟩ | ⟨t, r, rfl, hr, hxs⟩ | ⟨c, r, rfl, rfl, -, hxs⟩
  · exact ⟨r, rfl, hxs⟩
  · exact ⟨r, (comment?_append hr).1.symm, hxs⟩
  · exact ⟨r, rfl, hxs⟩

theorem scan?_nil (h : scan? s = some []) : s = [] := by
  unfold scan? at h
  split at h
  · rfl
  split at h
  · split at h <;> simp at h
  · split at h
    · simp at h
    · split at h <;> simp at h

theorem flatMap_text_scan? (h : scan? s = some fs) : fs.flatMap Fragment.text = s := by
  induction fs generalizing s with
  | nil => exact (scan?_nil h).symm
  | cons x xs ih =>
    obtain ⟨r, rfl, hr⟩ := scan?_step s x xs h
    rw [flatMap_cons, ih hr]

/-- The stretches with the form of a comment, from left to right and with no
regard to literals. -/
def found (s : Chars) : List Removal :=
  stretches Piece.text Piece.isComment (pieces s)

/-- The comments of the lexical scan. -/
def comments (fs : List Fragment) : List Removal :=
  stretches Fragment.text Fragment.isComment fs

/-- The position lies in a literal of the lexical scan. -/
def inLiteral (fs : List Fragment) (i : Nat) : Bool :=
  (stretches Fragment.text Fragment.isLiteral fs).any fun l => decide (l.Covers i)

theorem isCommentAt_of_found (h : m ∈ found s) : IsCommentAt s m := by
  obtain ⟨⟨i, x⟩, hx, hkind, rfl⟩ := mem_stretches.1 h
  obtain ⟨rest, hrest⟩ := exists_cut (fun s xs => pieces s = xs) pieces_step rfl hx
  rcases pieces_cons hrest with ⟨t, r, rfl, hr, -⟩ | ⟨c, r, rfl, -⟩
  · exact ⟨rfl, r, hr⟩
  · simp [Piece.isComment] at hkind

theorem isCommentAt_of_comments (hs : scan? s = some fs) (h : m ∈ comments fs) : IsCommentAt s m := by
  obtain ⟨⟨i, x⟩, hx, hkind, rfl⟩ := mem_stretches.1 h
  obtain ⟨rest, hrest⟩ := exists_cut (fun s xs => scan? s = some xs) scan?_step hs hx
  rcases scan?_cons hrest with ⟨q, a, r, rfl, -⟩ | ⟨t, r, rfl, hr, -⟩ | ⟨c, r, rfl, -⟩
  · simp [Fragment.isComment] at hkind
  · exact ⟨rfl, r, hr⟩
  · simp [Fragment.isComment] at hkind

theorem found_of_comments (hs : scan? s = some fs) (hc : c ∈ comments fs) :
    c ∈ found s ∨ ∃ m ∈ found s, m.start < c.start ∧ c.start < m.stop := by
  have hat := isCommentAt_of_comments hs hc
  have hlen : c.start < 0 + ((pieces s).flatMap Piece.text).length := by
    rw [flatMap_text_pieces, Nat.zero_add]
    exact hat.lt_length
  obtain ⟨⟨i, x⟩, hx, hi⟩ := exists_placed (Nat.zero_le _) hlen
  obtain ⟨rest, hrest⟩ := exists_cut (fun s xs => pieces s = xs) pieces_step rfl hx
  rcases pieces_cons hrest with ⟨t, r, rfl, -⟩ | ⟨d, r, rfl, -, hnone, -⟩
  · have hm : stretch Piece.text (i, .comment t) ∈ found s :=
      mem_stretches.2 ⟨_, hx, rfl, rfl⟩
    rcases Nat.lt_or_eq_of_le hi.1 with hlt | heq
    · exact .inr ⟨_, hm, hlt, hi.2⟩
    · exact .inl ((isCommentAt_of_found hm).eq hat heq ▸ hm)
  · exact absurd hnone (hat.ne_none hi.1 hi.2)

theorem covers_of_found (hs : scan? s = some fs) (hm : m ∈ found s) :
    inLiteral fs m.start ∨ ∃ c ∈ comments fs, c.Covers m.start := by
  have hat := isCommentAt_of_found hm
  have hlen : m.start < 0 + (fs.flatMap Fragment.text).length := by
    rw [flatMap_text_scan? hs, Nat.zero_add]
    exact hat.lt_length
  obtain ⟨⟨i, x⟩, hx, hi⟩ := exists_placed (Nat.zero_le _) hlen
  obtain ⟨rest, hrest⟩ := exists_cut (fun s xs => scan? s = some xs) scan?_step hs hx
  rcases scan?_cons hrest with ⟨q, a, r, rfl, -⟩ | ⟨t, r, rfl, -⟩ | ⟨d, r, rfl, -, hnone, -⟩
  · exact .inl (any_eq_true.2 ⟨_, mem_stretches.2 ⟨_, hx, rfl, rfl⟩, decide_eq_true hi⟩)
  · exact .inr ⟨_, mem_stretches.2 ⟨_, hx, rfl, rfl⟩, hi⟩
  · exact absurd hnone (hat.ne_none hi.1 hi.2)

theorem inLiteral_of_comments (hs : scan? s = some fs)
    (hc : c ∈ comments fs) : inLiteral fs c.start = false := by
  rw [Bool.eq_false_iff]
  intro h
  have hcover := (isCommentAt_of_comments hs hc).covers
  obtain ⟨l, hl, hli⟩ := any_eq_true.1 h
  obtain ⟨x, hx, hxkind, rfl⟩ := mem_stretches.1 hc
  obtain ⟨y, hy, hykind, rfl⟩ := mem_stretches.1 hl
  rw [placed_eq hx hy hcover (of_decide_eq_true hli)] at hxkind
  cases h2 : y.2 <;> simp [h2, Fragment.isComment, Fragment.isLiteral] at hxkind hykind

/-! ## Where the two scans agree -/

theorem comments_subset_found (hs : scan? s = some fs)
    (hrun : ∀ m ∈ found s, inLiteral fs m.start →
      ∀ c ∈ comments fs, m.stop ≤ c.start ∨ c.stop ≤ m.start)
    (hc : c ∈ comments fs) : c ∈ found s := by
  -- from left to right: a stretch that hides `c` starts in a comment before `c`, which
  -- is found itself, and so ends where that comment ends
  induction hn : c.start using Nat.strongRecOn generalizing c with
  | ind n ih =>
    subst hn
    rcases found_of_comments hs hc with hfound | ⟨m, hm, hlt, hstop⟩
    · exact hfound
    exfalso
    have hcc := (isCommentAt_of_comments hs hc).covers
    rcases covers_of_found hs hm with hlit | ⟨d, hd, hcover⟩
    · rcases hrun m hm hlit c hc with h | h
      · omega
      · have := hcc.2
        omega
    · have hdc : d.start < c.start := Nat.lt_of_le_of_lt hcover.1 hlt
      have hdm := stretches_eq_of_covers (ih _ hdc hd rfl) hm hcover
        (isCommentAt_of_found hm).covers
      rw [hdm] at hd
      have := stretches_eq_of_covers hd hc ⟨Nat.le_of_lt hlt, hstop⟩ hcc
      rw [this] at hlt
      exact Nat.lt_irrefl _ hlt

theorem eq_of_starts {l l' : List Removal} (hl : l.Pairwise fun m n => m.start < n.start)
    (hl' : l'.Pairwise fun m n => m.start < n.start) (h : ∀ m, m ∈ l ↔ m ∈ l') : l = l' := by
  have hnodup : ∀ {k : List Removal}, k.Pairwise (fun m n => m.start < n.start) → k.Nodup :=
    fun hk => hk.imp fun hlt he => by rw [he] at hlt; exact Nat.lt_irrefl _ hlt
  refine Perm.eq_of_pairwise (fun m n _ _ hmn hnm => ?_) hl hl'
    ((perm_ext_iff_of_nodup (hnodup hl) (hnodup hl')).2 h)
  exact absurd hmn (Nat.lt_asymm hnm)

/-- The stretches found outside strings are the comments exactly if the count of
quotes tells at each stretch whether it starts in a literal, and no stretch that
starts in one runs into a comment. -/
theorem filter_found_eq_iff (hs : scan? s = some fs) (inside : Nat → Bool) :
    (found s).filter (fun m => !inside m.start) = comments fs ↔
      ∀ m ∈ found s, inside m.start = inLiteral fs m.start ∧
        (inLiteral fs m.start →
          ∀ c ∈ comments fs, m.stop ≤ c.start ∨ c.stop ≤ m.start) := by
  constructor
  · intro h m hm
    have hsub : ∀ c ∈ comments fs, c ∈ found s ∧ inside c.start = false := by
      intro c hc
      rw [← h, mem_filter, Bool.not_eq_true'] at hc
      exact hc
    cases hin : inside m.start with
    | false =>
      have hmc : m ∈ comments fs := by
        rw [← h, mem_filter]
        exact ⟨hm, by rw [hin]; rfl⟩
      have hlit := inLiteral_of_comments hs hmc
      rw [hlit]
      exact ⟨rfl, fun h => absurd h Bool.false_ne_true⟩
    | true =>
      have hapart : ∀ c ∈ comments fs, ∀ i, ¬(c.Covers i ∧ m.Covers i) := by
        intro c hc i hi
        obtain ⟨hcf, hcin⟩ := hsub c hc
        rw [stretches_eq_of_covers hcf hm hi.1 hi.2, hin] at hcin
        cases hcin
      have hmm := (isCommentAt_of_found hm).covers
      constructor
      · rcases covers_of_found hs hm with hlit | ⟨c, hc, hcover⟩
        · exact hlit.symm
        · exact absurd ⟨hcover, hmm⟩ (hapart c hc m.start)
      · intro _ c hc
        have hcc := (isCommentAt_of_comments hs hc).covers
        have hno := hapart c hc (max m.start c.start)
        simp only [Removal.Covers] at hno hmm hcc
        omega
  · intro h
    have hfound : ∀ c ∈ comments fs, c ∈ found s :=
      fun c hc => comments_subset_found hs (fun m hm => (h m hm).2) hc
    have hleft := pairwise_stretches fun m (hm : m ∈ found s) => (isCommentAt_of_found hm).covers
    have hright := pairwise_stretches fun m (hm : m ∈ comments fs) =>
      (isCommentAt_of_comments hs hm).covers
    refine eq_of_starts (hleft.filter _) hright fun m => ?_
    rw [mem_filter, Bool.not_eq_true']
    constructor
    · rintro ⟨hm, hin⟩
      rw [(h m hm).1] at hin
      rcases covers_of_found hs hm with hlit | ⟨c, hc, hcover⟩
      · rw [hlit] at hin
        cases hin
      · rw [stretches_eq_of_covers hm (hfound c hc) (isCommentAt_of_found hm).covers hcover]
        exact hc
    · intro hm
      have hf := hfound m hm
      exact ⟨hf, by rw [(h m hf).1, inLiteral_of_comments hs hm]⟩

/-! ## Removal -/

theorem position_over (p : Place) (u : Chars) :
    (p.over u).position = p.position + u.length := by
  induction u generalizing p with
  | nil => rfl
  | cons c u ih =>
    have hstep : (p.step c).position = p.position + 1 := rfl
    rw [Place.over, foldl_cons, ← Place.over, ih, hstep, length_cons]
    omega

theorem over_append (p : Place) : p.over (u ++ v) = (p.over u).over v :=
  foldl_append

theorem insideString_append (u v : Chars) :
    insideString (u ++ v) u.length = (Place.start.over u).inString := by
  rw [insideString, upTo, place_ofNat_of_le (by simp), take_left]

theorem removals_cons (p : Place) :
    removals p (x :: xs) =
      (if !p.inString && x.isComment then [stretch Piece.text (p.position, x)] else []) ++
        removals (p.over x.text) xs := by
  cases x with
  | code c => cases h : p.inString <;> rfl
  | comment t => cases h : p.inString <;> simp [removals, Piece.isComment, Piece.text, stretch, h]

def isRemoved (s : Chars) (x : Nat × Piece) : Bool :=
  !insideString s x.1 && x.2.isComment

theorem removals_eq (u : Chars) (xs : List Piece) :
    removals (Place.start.over u) xs =
      ((placed Piece.text u.length xs).filter (isRemoved (u ++ xs.flatMap Piece.text))).map
        (stretch Piece.text) := by
  induction xs generalizing u with
  | nil => rfl
  | cons x xs ih =>
    have hrest := ih (u ++ x.text)
    rw [over_append, length_append, append_assoc, ← flatMap_cons] at hrest
    have hposition := position_over .start u
    rw [show Place.start.position = 0 from rfl, Nat.zero_add] at hposition
    have hhere : (!(Place.start.over u).inString && x.isComment) =
        isRemoved (u ++ (x :: xs).flatMap Piece.text) (u.length, x) := by
      rw [isRemoved, insideString_append]
    rw [removals_cons, hhere, hposition, hrest, placed]
    generalize isRemoved (u ++ (x :: xs).flatMap Piece.text) = gone
    cases h : gone (u.length, x) <;> simp [h]

/-- A stretch that is deleted. -/
def Removal.patch (m : Removal) : Patch Char :=
  ⟨m.start, m.stop, []⟩

section

variable {α : Type} (text : α → Chars) (gone : Nat × α → Bool)

/-- The text of a part, and what stands in its place if it is deleted. -/
def holeAt (x : Nat × α) : Chars × Option Chars :=
  (text x.2, if gone x then some [] else none)

theorem patch_stretch (p : Nat) (xs : List α) :
    (((placed text p xs).filter gone).map (stretch text)).map Removal.patch =
      (holesFrom p ((placed text p xs).map (holeAt text gone))).map (Hole.patch id) := by
  induction xs generalizing p with
  | nil => rfl
  | cons x xs ih =>
    have hrest := ih (p + (text x).length)
    rw [placed, map_cons, holeAt]
    cases h : gone (p, x) with
    | true =>
      rw [filter_cons_of_pos h, map_cons, map_cons, hrest]
      rfl
    | false =>
      rw [filter_cons_of_neg (by simp [h]), hrest]
      rfl

theorem flatMap_placed (kind : α → Bool) (p : Nat) (xs : List α) :
    ((placed text p xs).filter fun x => kind x.2).flatMap (fun x => text x.2) =
    (xs.filter kind).flatMap text := by
  induction xs generalizing p with
  | nil => rfl
  | cons x xs ih => cases h : kind x <;> simp [placed, h, ih]

/-- To delete stretches that are parts of a text, one by one or at once, is to leave
these parts out. -/
theorem cutOut_placed (xs : List α) :
    let ms := ((placed text 0 xs).filter gone).map (stretch text)
    cutOut (xs.flatMap text) ms = patched 0 (xs.flatMap text) (ms.map Removal.patch) ∧
      patched 0 (xs.flatMap text) (ms.map Removal.patch) =
        ((placed text 0 xs).filter (!gone ·)).flatMap fun x => text x.2 := by
  intro ms
  have hjoined : joined ((placed text 0 xs).map (holeAt text gone)) = xs.flatMap text := by
    have := flatMap_placed text (fun _ => true) 0 xs
    rw [filter_true, filter_true] at this
    rwa [joined, flatMap_map]
  have hpatch := patch_stretch text gone 0 xs
  constructor
  · have horder := inOrder_holesFrom id 0 ((placed text 0 xs).map (holeAt text gone))
    rw [hjoined, Nat.zero_add, ← hpatch] at horder
    rw [← foldl_reverse_eq_patched (fun t e => bracket_eq_put) horder, ← map_reverse, foldl_map]
    rfl
  · rw [hpatch, ← hjoined, patched_holesFrom, replaced, flatMap_map]
    induction placed text 0 xs with
    | nil => rfl
    | cons x xs ih =>
      rw [flatMap_cons, ih, holeAt]
      cases h : gone x <;> simp [h]

end

theorem removeComments_eq (s : Chars) :
    (removeComments s).2 = (found s).filter (fun m => !insideString s m.start) ∧
      (removeComments s).1 = patched 0 s ((removeComments s).2.map Removal.patch) ∧
      (removeComments s).1 = ((placed Piece.text 0 (pieces s)).filter (!isRemoved s ·)).flatMap (·.2.text) := by
  have hremovals : (removeComments s).2 =
      ((placed Piece.text 0 (pieces s)).filter (isRemoved s)).map (stretch Piece.text) := by
    have := removals_eq [] (pieces s)
    rwa [flatMap_text_pieces] at this
  obtain ⟨hcut, hleft⟩ := cutOut_placed Piece.text (isRemoved s) (pieces s)
  rw [flatMap_text_pieces, ← hremovals] at hcut hleft
  refine ⟨?_, hcut, hcut.trans hleft⟩
  rw [hremovals, found, stretches, filter_map, filter_filter]
  rfl

theorem withoutComments_eq (hs : scan? s = some fs) :
    withoutComments fs = patched 0 s ((comments fs).map Removal.patch) := by
  have hleft := (cutOut_placed Fragment.text (fun x => x.2.isComment) fs).2
  rw [flatMap_text_scan? hs, flatMap_placed Fragment.text (!·.isComment)] at hleft
  exact hleft.symm

/-- **Comment removal, exactly.** In a text whose literals and block comments are
closed the comments are what is removed if, and only if, the count of quotes tells
at each stretch with the form of a comment whether it starts in a literal, and no
stretch that starts in one runs into a comment. Then all code and every literal
stays. -/
theorem removeComments_exact_iff {s : Chars} {fs : List Fragment} (hs : scan? s = some fs) :
    ((removeComments s).2 = comments fs ↔
      ∀ m ∈ found s, insideString s m.start = inLiteral fs m.start ∧
        (inLiteral fs m.start = true →
          ∀ c ∈ comments fs, m.stop ≤ c.start ∨ c.stop ≤ m.start)) ∧
      ((removeComments s).2 = comments fs → (removeComments s).1 = withoutComments fs) := by
  obtain ⟨hremoved, htext, -⟩ := removeComments_eq s
  constructor
  · rw [hremoved]
    exact filter_found_eq_iff hs fun i => insideString s i
  · intro h
    rw [htext, h, withoutComments_eq hs]

/-- Slashes in a literal, and a comment on the next line. -/
theorem removeComments_exact_next_line :
    scan? "u = \"//\";\n// c".toList = some [.code 'u', .code ' ', .code '=', .code ' ',
        .literal "\"//\"".toList, .code ';', .code '\n', .comment "// c".toList] ∧
      (removeComments "u = \"//\";\n// c".toList).1 = "u = \"//\";\n".toList := by
  have hs : scan? "u = \"//\";\n// c".toList = some [.code 'u', .code ' ', .code '=', .code ' ',
      .literal "\"//\"".toList, .code ';', .code '\n', .comment "// c".toList] := by
    decide +kernel
  have h := removeComments_exact_iff hs
  exact ⟨hs, h.2 (h.1.2 (by decide +kernel))⟩

/-- Slashes in a literal hide a comment on the same line. -/
theorem slashes_in_literal_hide_comment :
    (scan? "x = \"a//b\"; // c".toList).map comments = some [⟨12, 16, "// c".toList⟩] ∧
      removeComments "x = \"a//b\"; // c".toList = ("x = \"a//b\"; // c".toList, []) := by
  decide +kernel

end Obscura.Layout
