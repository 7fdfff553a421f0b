import Mathlib.Data.List.TakeWhile
import Obscura.Flow.Modifier
import Obscura.Proofs.Except

/-
  What becomes of the modifiers of a function. Every invocation whose definition
  the tree has goes from the signature (`wrapAll_ok`). Its code comes into the
  body only if the definition has a placeholder among the statements of its body
  and in the range of it (`HasCode`). So a check is dropped with every other
  definition, and the main statement, `keeps_checks_exactly`, says that this is
  the only way.
-/

namespace Obscura.Flow

open Text Ast Json
open List hiding lookup

variable {before behind code t u : Chars} {f v : Json} {here next : Bytes × List String}
  {known : Assoc Key Members} {s : Bytes} {w w' : Wrapped} {definition : Members}
  {found items : List Json}

/-! ## Blanks around a placeholder -/

theorem trimLeft_spec (t : Chars) : ∃ gap, t = gap ++ trimLeft t ∧ ∀ c ∈ gap, isBlank c :=
  ⟨t.takeWhile isBlank, (takeWhile_append_dropWhile).symm, fun _ h => mem_takeWhile_imp h⟩

theorem trimRight_spec (t : Chars) :
    ∃ gap, t = trimRight t ++ gap ∧ ∀ c ∈ gap, isBlank c := by
  obtain ⟨gap, ht, hgap⟩ := trimLeft_spec t.reverse
  refine ⟨gap.reverse, ?_, fun c hc => hgap c (mem_reverse.1 hc)⟩
  have := congrArg reverse ht
  rwa [reverse_reverse, reverse_append] at this

/-- A character that does nothing where a placeholder stood. -/
def IsFiller (c : Char) : Prop :=
  isBlank c = true ∨ c = ';'

/-- The text without what does nothing at its front. -/
def SkipsFiller (t rest : Chars) : Prop :=
  ∃ skipped, t = skipped ++ rest ∧ ∀ c ∈ skipped, IsFiller c

theorem SkipsFiller.refl (t : Chars) : SkipsFiller t t := ⟨[], rfl, fun _ h => nomatch h⟩

theorem SkipsFiller.trans {a b c : Chars} (h₁ : SkipsFiller a b) (h₂ : SkipsFiller b c) :
    SkipsFiller a c := by
  obtain ⟨s₁, rfl, h₁⟩ := h₁
  obtain ⟨s₂, rfl, h₂⟩ := h₂
  refine ⟨s₁ ++ s₂, by rw [append_assoc], ?_⟩
  intro x hx
  rcases mem_append.1 hx with hx | hx
  · exact h₁ x hx
  · exact h₂ x hx

theorem SkipsFiller.trimLeft (h : SkipsFiller t u) : SkipsFiller t (trimLeft u) := by
  obtain ⟨gap, hu, hgap⟩ := trimLeft_spec u
  exact h.trans ⟨gap, hu, fun c hc => .inl (hgap c hc)⟩

theorem SkipsFiller.semicolon {rest : Chars} (h : SkipsFiller t u)
    (hu : Text.trimLeft u = ';' :: rest) : SkipsFiller t rest :=
  (hu ▸ h.trimLeft).trans ⟨[';'], rfl, fun _ hc => .inr (mem_singleton.1 hc)⟩

/-- Behind a placeholder only blanks and semicolons are left out. -/
theorem skipsFiller_behindPlaceholder : SkipsFiller t (behindPlaceholder t) := by
  unfold behindPlaceholder
  dsimp only
  split
  · rename_i rest hsemi
    refine SkipsFiller.semicolon ?_ hsemi
    split
    · exact (SkipsFiller.refl t).semicolon ‹_›
    · exact .refl t
  · refine SkipsFiller.trimLeft ?_
    split
    · exact (SkipsFiller.refl t).semicolon ‹_›
    · exact .refl t

/-! ## Definitions of modifiers -/

/-- The first placeholder among some statements. -/
def FirstPlaceholder (items : List Json) (p : Json) : Prop :=
  ∃ front rest, items = front ++ p :: rest ∧ IsNode "PlaceholderStatement" p ∧
    ∀ q ∈ front, ¬ IsNode "PlaceholderStatement" q

theorem firstPlaceholder_cons {q : Json} {p : Json} :
    FirstPlaceholder (q :: items) p ↔
      (IsNode "PlaceholderStatement" q ∧ q = p) ∨
        (¬ IsNode "PlaceholderStatement" q ∧ FirstPlaceholder items p) := by
  constructor
  · rintro ⟨front, rest, he, hp, hf⟩
    cases front with
    | nil =>
      cases he
      exact .inl ⟨hp, rfl⟩
    | cons q' front =>
      cases he
      exact .inr ⟨hf q (.head _), front, rest, rfl, hp, fun r hr => hf r (.tail _ hr)⟩
  · rintro (⟨hq, rfl⟩ | ⟨hq, front, rest, rfl, hp, hf⟩)
    · exact ⟨[], items, rfl, hq, fun _ h => nomatch h⟩
    · exact ⟨q :: front, rest, rfl, hp, forall_mem_cons.2 ⟨hq, hf⟩⟩

/-- A search that succeeds tells the first placeholder, or that there is
none. -/
theorem placeholderIn_ok {found : Option Json}
    (h : placeholderIn items = .ok found) (p : Json) :
    found = some p ↔ FirstPlaceholder items p := by
  induction items with
  | nil =>
    cases h
    refine ⟨fun hp => (nomatch hp), ?_⟩
    rintro ⟨front, rest, he, -⟩
    cases front <;> cases he
  | cons q items ih =>
    rw [firstPlaceholder_cons]
    unfold placeholderIn at h
    split at h
    · rename_i heq
      cases heq
    · rename_i ms items' heq
      cases heq
      rw [isNode_obj]
      split at h
      · rename_i hk
        cases h
        simp [hk]
      · rename_i hk
        rw [ih h]
        simp [hk]
    · cases h

/-- The code of a definition: what stands between the braces of its body before
and behind the first placeholder among its statements. -/
def CodeOf (s : Bytes) (definition : Members) (before behind : Chars) : Prop :=
  ∃ body items p b r, fieldOf "body" definition = .obj body ∧
    ((lookup "statements" body).getD (.arr [])).loopItems = .ok items ∧ FirstPlaceholder items p ∧
    rangeOf (.obj body) = .ok b ∧ rangeOf p = .ok r ∧ b.start ≤ r.start ∧ r.stop ≤ b.stop ∧
    decoded (slice s (b.start + 1) r.start) = .ok before ∧
    decoded (slice s r.stop (b.stop - 1)) = .ok behind

/-- The definition has code around a placeholder. It has none without a body,
without a placeholder, and with one outside of the range of the body. -/
def HasCode (s : Bytes) (definition : Members) : Prop :=
  ∃ before behind, CodeOf s definition before behind

theorem CodeOf.isSet
    (h : CodeOf s definition before behind) : (fieldOf "body" definition).isSet := by
  obtain ⟨body, items, p, b, r, hbody, hitems, ⟨front, rest, rfl, -⟩, -⟩ := h
  rw [hbody]
  cases body with
  | nil =>
    have := Except.ok.inj hitems
    simp at this
  | cons => rfl

theorem CodeOf.of_body {body : Members} (h : CodeOf s definition before behind)
    (hbody : fieldOf "body" definition = .obj body)
    (hitems : ((lookup "statements" body).getD (.arr [])).loopItems = .ok items) :
    ∃ p b r, FirstPlaceholder items p ∧ rangeOf (.obj body) = .ok b ∧ rangeOf p = .ok r ∧
      b.start ≤ r.start ∧ r.stop ≤ b.stop := by
  obtain ⟨body', items', p, b, r, hbody', hitems', hp, hb, hr, h₁, h₂, -⟩ := h
  rw [hbody] at hbody'
  cases hbody'
  rw [hitems] at hitems'
  cases hitems'
  exact ⟨p, b, r, hp, hb, hr, h₁, h₂⟩

/-- Only a definition with code around a placeholder puts something around a
body, and that is its code. -/
theorem wrappingOf_ok {w : Wrapping} (h : wrappingOf s definition = .ok w) :
    (¬ HasCode s definition ∧ (w = .nothing ∨ w = .noPlaceholder)) ∨
      ∃ before behind, CodeOf s definition before behind ∧
        w = .around (trimRight before) (behindPlaceholder behind) := by
  unfold wrappingOf at h
  dsimp only at h
  split at h
  · rename_i hset
    refine .inl ⟨?_, .inl (pure_ok.1 h).symm⟩
    rintro ⟨before, behind, hcode⟩
    rw [hcode.isSet] at hset
    cases hset
  split at h
  · rename_i body hbody
    obtain ⟨items, hitems, h⟩ := bind_ok.1 h
    obtain ⟨found, hfound, h⟩ := bind_ok.1 h
    have hfirst := placeholderIn_ok hfound
    split at h
    · refine .inl ⟨?_, .inr (pure_ok.1 h).symm⟩
      rintro ⟨before, behind, hcode⟩
      obtain ⟨p, -, -, hp, -⟩ := hcode.of_body hbody hitems
      cases (hfirst p).2 hp
    · rename_i p
      obtain ⟨b, hb, h⟩ := bind_ok.1 h
      obtain ⟨r, hr, h⟩ := bind_ok.1 h
      split at h
      · rename_i hout
        refine .inl ⟨?_, .inl (pure_ok.1 h).symm⟩
        rintro ⟨before, behind, hcode⟩
        obtain ⟨p', b', r', hp, hb', hr', h₁, h₂⟩ := hcode.of_body hbody hitems
        -- the ranges are those that were looked at, and one lies outside
        cases (hfirst p').2 hp
        cases hb.symm.trans (hbody ▸ hb')
        cases hr.symm.trans hr'
        omega
      · rename_i hin
        obtain ⟨before, hbefore, h⟩ := bind_ok.1 h
        obtain ⟨behind, hbehind, h⟩ := bind_ok.1 h
        exact .inr ⟨before, behind, ⟨body, items, p, b, r, hbody, hitems, (hfirst p).1 rfl,
          hbody ▸ hb, hr, by omega, by omega, hbefore, hbehind⟩, (pure_ok.1 h).symm⟩
  · cases h

/-! ## Invocations -/

/-- The invocation names the definition. -/
def Refers (known : Assoc Key Members) (v : Json) (definition : Members) : Prop :=
  ∃ i, invocationOf v = .ok i ∧ known.find i.definition = some definition

/-- The tree has the definition that an invocation refers to. -/
def isDefined (known : Assoc Key Members) (v : Json) : Bool :=
  match invocationOf v with
  | .ok i => known.has i.definition
  | .error _ => false

theorem isDefined_iff : isDefined known v ↔ ∃ definition, Refers known v definition := by
  unfold isDefined Refers
  cases invocationOf v with
  | error e => simp
  | ok i => simp [Assoc.has, Option.isSome_iff_exists]

theorem Refers.unique {d d' : Members} (h : Refers known v d) (h' : Refers known v d') : d = d' := by
  obtain ⟨i, hi, hd⟩ := h
  obtain ⟨i', hi', hd'⟩ := h'
  rw [hi] at hi'
  cases hi'
  rw [hd] at hd'
  exact Option.some.inj hd'

/-- The code of the definition that an invocation refers to stands in `code`
around `original`. Blanks before its placeholder and blanks and semicolons
behind it are left out. -/
def Inlined (s : Bytes) (known : Assoc Key Members) (original code : Chars) (v : Json) : Prop :=
  ∃ definition before behind kept gap rest inner,
    Refers known v definition ∧ CodeOf s definition before behind ∧
    before = kept ++ gap ∧ (∀ c ∈ gap, isBlank c = true) ∧ SkipsFiller behind rest ∧
    original <:+: inner ∧ kept ++ inner ++ rest <:+: code

theorem Inlined.mono {original code' : Chars}
    (h : Inlined s known original code v) (hc : code <:+: code') :
    Inlined s known original code' v := by
  obtain ⟨d, before, behind, kept, gap, rest, inner, hd, hcode, hb, hg, hr, ho, hi⟩ := h
  exact ⟨d, before, behind, kept, gap, rest, inner, hd, hcode, hb, hg, hr, ho, hi.trans hc⟩

theorem wrap_eq (name before code behind : Chars) :
    wrap name before code behind =
      ("\n        // Inline Modifier: ".toList ++ name ++ ['\n']) ++
        (before ++ ('\n' :: code ++ ['\n']) ++ behind) := by
  unfold wrap
  generalize "\n        // Inline Modifier: ".toList = header
  simp

theorem infix_wrap (name before code behind : Chars) :
    before ++ ('\n' :: code ++ ['\n']) ++ behind <:+: wrap name before code behind := by
  rw [wrap_eq]
  exact (suffix_append _ _).isInfix

theorem code_infix_wrap (name before code behind : Chars) :
    code <:+: wrap name before code behind :=
  .trans ⟨before ++ ['\n'], '\n' :: behind, by simp⟩ (infix_wrap name before code behind)

/-- What one invocation does to a body. -/
structure Applied (s : Bytes) (known : Assoc Key Members) (v : Json) (w w' : Wrapped) : Prop where
  /-- The code so far stays together. -/
  code : w.code <:+: w'.code
  gone : w'.gone = w.gone ++ [v].filter (isDefined known)
  inlined : ∀ original, original <:+: w.code → ∀ d, Refers known v d → HasCode s d →
    Inlined s known original w'.code v

/-- An invocation whose definition has no code leaves the body alone. -/
theorem Applied.skipped (hcode : w'.code = w.code)
    (hgone : w'.gone = w.gone ++ [v].filter (isDefined known)) (href : Refers known v definition)
    (hnot : ¬ HasCode s definition) : Applied s known v w w' := by
  refine ⟨hcode ▸ infix_rfl, hgone, fun _ _ d hd hin => ?_⟩
  rw [hd.unique href] at hin
  exact absurd hin hnot

theorem applyModifier_ok (h : applyModifier s known w v = .ok w') : Applied s known v w w' := by
  obtain ⟨i, hi, h⟩ := bind_ok.1 h
  split at h
  · rename_i hnone
    have hnot : ∀ d, ¬ Refers known v d := by
      rintro d ⟨i', hi', hd⟩
      rw [hi] at hi'
      cases hi'
      rw [hnone] at hd
      cases hd
    have hdef : isDefined known v = false := by
      rw [Bool.eq_false_iff, Ne, isDefined_iff]
      exact fun ⟨d, hd⟩ => hnot d hd
    rw [← pure_ok.1 h]
    exact ⟨infix_rfl, by simp [hdef], fun _ _ d hd => absurd hd (hnot d)⟩
  · rename_i definition hsome
    have href : Refers known v definition := ⟨i, hi, hsome⟩
    have hdef : isDefined known v := isDefined_iff.2 ⟨definition, href⟩
    obtain ⟨wrapping, hw, h⟩ := bind_ok.1 h
    -- the invocation goes, whatever its definition puts around the body
    have hgone : w.gone ++ [v] = w.gone ++ [v].filter (isDefined known) := by simp [hdef]
    rcases wrappingOf_ok hw with ⟨hnot, rfl | rfl⟩ | ⟨before, behind, hcode, rfl⟩
    · rw [← pure_ok.1 h]
      exact .skipped rfl hgone href hnot
    · rw [← pure_ok.1 h]
      exact .skipped rfl hgone href hnot
    · rw [← pure_ok.1 h]
      refine ⟨code_infix_wrap _ _ _ _, hgone, fun original ho d _ _ => ?_⟩
      obtain ⟨gap, hbefore, hgap⟩ := trimRight_spec before
      exact ⟨definition, before, behind, trimRight before, gap, behindPlaceholder behind, _, href,
        hcode, hbefore, hgap, skipsFiller_behindPlaceholder,
        ho.trans ⟨['\n'], ['\n'], rfl⟩, infix_wrap _ _ _ _⟩

theorem noting_ok {α : Type} {remarks : List String} {x : Except Fault α} {a : α} :
    noting remarks x = .ok a ↔ x = .ok a := by
  cases x with
  | error e => exact ⟨fun h => (nomatch h), fun h => (nomatch h)⟩
  | ok b => exact ⟨fun h => congrArg _ (Except.ok.inj h), fun h => congrArg _ (Except.ok.inj h)⟩

/-- A body in one modifier after the other. -/
def wrapAll (s : Bytes) (known : Assoc Key Members) (vs : List Json) (w : Wrapped) :
    Except Stopped Wrapped :=
  vs.foldlM (fun w v => noting w.remarks (applyModifier s known w v)) w

theorem wrapAll_ok {vs : List Json} (h : wrapAll s known vs w = .ok w') :
    w.code <:+: w'.code ∧ w'.gone = w.gone ++ vs.filter (isDefined known) ∧
      ∀ original, original <:+: w.code → ∀ v ∈ vs, ∀ d, Refers known v d → HasCode s d →
        Inlined s known original w'.code v := by
  induction vs generalizing w with
  | nil =>
    obtain rfl := Except.ok.inj h
    exact ⟨infix_rfl, by simp, fun _ _ v hv => nomatch hv⟩
  | cons v vs ih =>
    rw [wrapAll, foldlM_cons] at h
    obtain ⟨m, hm, h⟩ := bind_ok.1 h
    have ha := applyModifier_ok (noting_ok.1 hm)
    obtain ⟨hcode, hgone, hin⟩ := ih h
    refine ⟨ha.code.trans hcode, ?_, ?_⟩
    · rw [hgone, ha.gone, append_assoc, ← filter_append]
      rfl
    · intro original ho u hu d hd hi
      rcases mem_cons.1 hu with rfl | hu
      · exact (ha.inlined original ho d hd hi).mono hcode
      · exact hin original (ho.trans ha.code) u hu d hd hi

/-! ## Functions -/

/-- One function is rewritten: its code and its modifiers are read from the
source, its code is wrapped by them, the result takes the place of its body, and
the invocations that go are dropped one by one. -/
structure Rewritten (s : Bytes) (known : Assoc Key Members) (f : Json)
    (here next : Bytes × List String) (code : Chars) (modifiers : List Json) (w : Wrapped) :
    Prop where
  wrapped : wrapAll s known modifiers ⟨code, [], here.2⟩ = .ok w
  /-- What becomes of the text. -/
  put : ∃ (body : Json) (r : Range) (order : List Json), f.field "body" = .ok body ∧
    bodyOf s f body = .ok (r, code, modifiers) ∧ order.Perm w.gone ∧
    order.foldlM dropInvocation (splice here.1 r.start r.stop
      (encode ("\x7b ".toList ++ w.code ++ " \x7d".toList))) = .ok next.1
  /-- The invocations that go are those with a definition in the tree. -/
  gone : w.gone = modifiers.filter (isDefined known)
  /-- Those whose definition can be inlined have their code in the new body. -/
  inlined : ∀ v ∈ modifiers, ∀ d, Refers known v d → HasCode s d → Inlined s known code w.code v

/-- No check is dropped: what goes from the signature has its code in the body,
and what cannot be inlined stays. -/
structure KeepsChecks (s : Bytes) (known : Assoc Key Members) (code : Chars)
    (modifiers : List Json) (w : Wrapped) : Prop where
  inlined : ∀ v ∈ w.gone, Inlined s known code w.code v
  stays : ∀ v ∈ modifiers, ∀ d, Refers known v d → ¬ HasCode s d → v ∉ w.gone

theorem Rewritten.keepsChecks_iff {modifiers : List Json}
    (h : Rewritten s known f here next code modifiers w) :
    KeepsChecks s known code modifiers w ↔
      ∀ v ∈ modifiers, ∀ d, Refers known v d → HasCode s d := by
  have hgone : ∀ {v d}, v ∈ modifiers → Refers known v d → v ∈ w.gone := by
    intro v d hv hd
    rw [h.gone]
    exact mem_filter.2 ⟨hv, isDefined_iff.2 ⟨d, hd⟩⟩
  constructor
  · intro hk v hv d hd
    obtain ⟨d', before, behind, -, -, -, -, hd', hcode, -⟩ := hk.inlined v (hgone hv hd)
    rw [hd.unique hd']
    exact ⟨before, behind, hcode⟩
  · intro hall
    constructor
    · intro v hv
      rw [h.gone] at hv
      obtain ⟨hv, hdef⟩ := mem_filter.1 hv
      obtain ⟨d, hd⟩ := isDefined_iff.1 hdef
      exact h.inlined v hv d hd (hall v hv d hd)
    · intro v hv d hd hnot
      exact absurd (hall v hv d hd) hnot

theorem map_snd_of_starts {pairs : List (Int × Json)}
    (h : Forall₂
      (fun v y => (do return ((← rangeOf v).start, v) : Except Fault (Int × Json)) = .ok y)
      found pairs) : pairs.map (·.2) = found := by
  induction h with
  | nil => rfl
  | cons hv _ ih =>
    obtain ⟨r, -, hv⟩ := bind_ok.1 hv
    rw [map_cons, ih, ← pure_ok.1 hv]

theorem byRange_perm {order : List Json} (h : byRange found = .ok order) :
    order.Perm found := by
  obtain ⟨pairs, hp, h⟩ := bind_ok.1 h
  rw [← pure_ok.1 h, laterFirst]
  have hperm := (mergeSort_perm pairs fun a b => decide (b.1 ≤ a.1)).map (·.2)
  rwa [map_snd_of_starts (forall₂_of_mapM hp)] at hperm

/-- A function without a body is passed over, any other is rewritten. -/
theorem inlineInto_ok (h : inlineInto s known here f = .ok next) :
    ∃ body, f.field "body" = .ok body ∧
      ((body.isSet = false ∧ next = here) ∨
        (body.isSet ∧
          ∃ code modifiers w, Rewritten s known f here next code modifiers w)) := by
  obtain ⟨body, hbody, h⟩ := bind_ok.1 h
  rw [noting_ok] at hbody
  refine ⟨body, hbody, ?_⟩
  split at h
  · rename_i hset
    exact .inl ⟨by simpa using hset, (pure_ok.1 h).symm⟩
  · rename_i hset
    refine .inr ⟨by simpa using hset, ?_⟩
    obtain ⟨⟨r, code, modifiers⟩, hread, h⟩ := bind_ok.1 h
    obtain ⟨w, hw, h⟩ := bind_ok.1 h
    obtain ⟨out, hput, h⟩ := bind_ok.1 h
    obtain ⟨order, horder, hput⟩ := bind_ok.1 (noting_ok.1 hput)
    obtain ⟨-, hgone, hin⟩ := wrapAll_ok hw
    rw [← pure_ok.1 h]
    exact ⟨code, modifiers, w, hw,
      ⟨body, r, order, hbody, noting_ok.1 hread, byRange_perm horder, hput⟩, hgone,
      hin code infix_rfl⟩

/-- **When inlining keeps the checks.** For every source and tree, every function
with a body is rewritten at its turn, and no check of it is dropped exactly if
all definitions of the tree that its modifiers refer to can be inlined. -/
theorem keeps_checks_exactly {source out : Chars} {tree : Json} {remarks : List String}
    (h : inlineModifiersWith source tree = .ok (out, remarks)) :
    ∃ known functions last, numbered "ModifierDefinition" tree = .ok known ∧
      byRange (modified tree) = .ok functions ∧ functions.Perm (modified tree) ∧
      functions.foldlM (inlineInto (encode source) known) (encode source, []) = .ok last ∧
      decoded last.1 = .ok out ∧
      ∀ front f rest, functions = front ++ f :: rest →
        ∃ here next body, front.foldlM (inlineInto (encode source) known) (encode source, []) = .ok here ∧
          rest.foldlM (inlineInto (encode source) known) next = .ok last ∧
          f.field "body" = .ok body ∧ (body.isSet = false → next = here) ∧
          (body.isSet = true → ∃ code modifiers w,
            Rewritten (encode source) known f here next code modifiers w ∧
            (KeepsChecks (encode source) known code modifiers w ↔
              ∀ v ∈ modifiers, ∀ d, Refers known v d → HasCode (encode source) d)) := by
  obtain ⟨known, hknown, h⟩ := bind_ok.1 h
  obtain ⟨functions, hfun, h⟩ := bind_ok.1 h
  obtain ⟨last, hlast, h⟩ := bind_ok.1 h
  obtain ⟨text, htext, h⟩ := bind_ok.1 h
  cases pure_ok.1 h
  rw [noting_ok] at hknown hfun htext
  refine ⟨known, functions, last, hknown, hfun, byRange_perm hfun, hlast, htext, ?_⟩
  rintro front f rest rfl
  obtain ⟨here, next, hfront, hf, hrest⟩ := foldlM_append_cons.1 hlast
  obtain ⟨body, hbody, hcase⟩ := inlineInto_ok hf
  refine ⟨here, next, body, hfront, hrest, hbody, ?_, ?_⟩
  · intro hset
    rcases hcase with ⟨-, he⟩ | ⟨hset', -⟩
    · exact he
    · rw [hset] at hset'
      cases hset'
  · intro hset
    rcases hcase with ⟨hset', -⟩ | ⟨-, code, modifiers, w, hw⟩
    · rw [hset] at hset'
      cases hset'
    · exact ⟨code, modifiers, w, hw, hw.keepsChecks_iff⟩

/-- A modifier that runs `r` first, and a function with it. -/
def guardedSource : Chars :=
  "modifier m \x7b r(); _; \x7d function f() m \x7b a(); \x7d".toList

def guardedDefinition : Members :=
  [("nodeType", .str "ModifierDefinition"), ("id", .int 1), ("body", .obj [
    ("src", .str "11:11:0"), ("statements", .arr [
      .obj [("nodeType", .str "ExpressionStatement"), ("src", .str "13:3:0")],
      .obj [("nodeType", .str "PlaceholderStatement"), ("src", .str "18:1:0")]])])]

def guardedTree : Json :=
  .obj [("nodes", .arr [.obj guardedDefinition,
    .obj [("nodeType", .str "FunctionDefinition"), ("src", .str "23:23:0"),
      ("body", .obj [("src", .str "38:8:0")]), ("modifiers", .arr [
        .obj [("src", .str "36:1:0"), ("modifierName",
          .obj [("name", .str "m"), ("referencedDeclaration", .int 1)])]])]])]

theorem guarded_hasCode : HasCode (encode guardedSource) guardedDefinition := by
  refine ⟨" r(); ".toList, "; ".toList, _, _, _, ⟨11, 22⟩, ⟨18, 19⟩, rfl, rfl,
    ⟨[_], [], rfl, ⟨_, rfl, rfl⟩, ?_⟩, by decide, by decide, by decide, by decide,
    by decide +kernel, by decide +kernel⟩
  intro q hq
  rw [mem_singleton.1 hq, isNode_obj]
  decide

/-- The one modifier of the function is inlined and goes. -/
theorem keeps_checks_guarded :
    ∃ known f here next code modifiers w, modifiers ≠ [] ∧
      Rewritten (encode guardedSource) known f here next code modifiers w ∧
      KeepsChecks (encode guardedSource) known code modifiers w := by
  obtain ⟨known, functions, last, hk, -, hperm, -, -, hall⟩ := keeps_checks_exactly
    (show inlineModifiersWith guardedSource guardedTree = .ok
      (guardedSource.take 35 ++
        " \x7b \n        // Inline Modifier: m\n r();\n a(); \n \x7d".toList, []) by decide +kernel)
  obtain rfl := List.perm_singleton.1 hperm
  obtain ⟨here, next, body, -, -, hbody, -, hset⟩ := hall [] _ [] rfl
  cases hbody
  obtain ⟨code, modifiers, w, hw, hiff⟩ := hset rfl
  obtain ⟨body, r, order, hbody, hread, -⟩ := hw.put
  cases hbody
  obtain ⟨_, -, hread⟩ := bind_ok.1 hread
  obtain ⟨_, -, hread⟩ := bind_ok.1 hread
  obtain ⟨ms, hms, hread⟩ := bind_ok.1 hread
  cases hms
  cases hread
  refine ⟨known, _, _, _, _, _, w, List.cons_ne_nil _ _, hw, hiff.2 ?_⟩
  intro v hv d hd
  cases List.mem_singleton.1 hv
  cases hk
  obtain ⟨i, hi, hd⟩ := hd
  cases hi
  cases hd
  exact guarded_hasCode

/-- A modifier that holds its placeholder inside of a condition, and a function
with it. -/
def nestedSource : Chars :=
  "modifier m \x7b if (k) \x7b _; \x7d \x7d function f() m \x7b a(); \x7d".toList

def nestedTree : Json :=
  .obj [("nodes", .arr [
    .obj [("nodeType", .str "ModifierDefinition"), ("id", .int 1), ("body", .obj [
      ("src", .str "11:17:0"), ("statements", .arr [
        .obj [("nodeType", .str "IfStatement"), ("src", .str "13:13:0"), ("trueBody", .obj [
          ("nodeType", .str "Block"), ("src", .str "20:6:0"), ("statements", .arr [
            .obj [("nodeType", .str "PlaceholderStatement"), ("src", .str "22:1:0")]])])]])])],
    .obj [("nodeType", .str "FunctionDefinition"), ("src", .str "29:23:0"),
      ("body", .obj [("src", .str "44:8:0")]), ("modifiers", .arr [
        .obj [("src", .str "42:1:0"), ("modifierName",
          .obj [("name", .str "m"), ("referencedDeclaration", .int 1)])]])]])]

/-- Its invocation goes and its condition does not come into the body. -/
theorem nested_placeholder_drops_check :
    inlineModifiersWith nestedSource nestedTree = .ok
      (nestedSource.take 41 ++ " \x7b  a();  \x7d".toList,
        ["[WARN] Modifier m has no '_;' placeholder. Skipping."]) := by
  decide +kernel

end Obscura.Flow
