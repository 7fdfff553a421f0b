import Obscura.Proofs.Statements

/-
  What a body does once the code of its modifiers stands in it. A modifier is a layer
  around the body: code before the placeholder and code behind it. In a call the layers
  are nested, and a return leaves only the layer in which it stands. In the text that
  is written, all parts stand in one row, and a return leaves them all. The two runs
  come to the same exactly if the code that the return passes over would have done
  nothing (`call_flat_eq_nested_iff`).
-/

namespace Obscura.Flow

open Text Ast Json List

variable {before code : Chars} {known : Assoc Key Members} {s : Bytes} {w w' : Wrapped}

/-! ## Runs of statements -/

/-- The statements of a piece of code. -/
abbrev Code : Type :=
  List (List Symbol)

variable {c : Code}

/-- What comes of a statement: the next one is run, the code is left, or the whole call ends. -/
inductive Outcome (σ : Type) where
  | goesOn (x : σ)
  | returns (x : σ)
  | stops (x : σ)
deriving Repr, DecidableEq

/-- What comes of a call. -/
inductive Result (σ : Type) where
  | done (x : σ)
  | stopped (x : σ)
deriving Repr, DecidableEq

/-- What a single statement does to a state. -/
structure Meaning (σ : Type) where
  run : List Symbol → σ → Outcome σ

section Runs

variable {σ : Type}

def Outcome.andThen : Outcome σ → (σ → Outcome σ) → Outcome σ
  | .goesOn x, k => k x
  | o, _ => o

def Outcome.finish (behindReturn : σ → Result σ) : Outcome σ → Result σ
  | .goesOn x => .done x
  | .returns x => behindReturn x
  | .stops x => .stopped x

def Result.andThen : Result σ → (σ → Result σ) → Result σ
  | .done x, k => k x
  | .stopped x, _ => .stopped x

theorem Result.andThen_done (r : Result σ) : r.andThen .done = r := by
  cases r <;> rfl

theorem Result.andThen_assoc (r : Result σ) (k l : σ → Result σ) :
    (r.andThen k).andThen l = r.andThen fun x => (k x).andThen l := by
  cases r <;> rfl

namespace Meaning

variable (L : Meaning σ)

/-- The statements in turn, up to one that does not go on. -/
def exec : Code → σ → Outcome σ
  | [], x => .goesOn x
  | s :: c, x => (L.run s x).andThen (exec c)

def call (c : Code) (x : σ) : Result σ :=
  (L.exec c x).finish .done

theorem exec_append (a b : Code) (x : σ) : L.exec (a ++ b) x = (L.exec a x).andThen (L.exec b) := by
  induction a generalizing x with
  | nil => rfl
  | cons s a ih =>
    rw [cons_append, exec, exec]
    cases L.run s x with
    | goesOn y => exact ih y
    | returns y => rfl
    | stops y => rfl

end Meaning

/-! ## Layers -/

/-- What a modifier puts around a body. -/
structure Layer where
  pre : Code
  post : Code
deriving Repr, DecidableEq

/-- All parts in one row: the first layer stands around the second, and so on. -/
def flat (layers : List Layer) (body : Code) : Code :=
  layers.flatMap Layer.pre ++ body ++ layers.reverse.flatMap Layer.post

theorem flat_nil (body : Code) : flat [] body = body := append_nil body

theorem flat_cons (m : Layer) (layers : List Layer) (body : Code) :
    flat (m :: layers) body = m.pre ++ (flat layers body ++ m.post) := by
  simp [flat]

theorem flat_concat (layers : List Layer) (m : Layer) (body : Code) :
    flat (layers ++ [m]) body = flat layers (m.pre ++ (body ++ m.post)) := by
  simp [flat]

namespace Meaning

variable (L : Meaning σ) {x : σ}

/-- **A call of a body in layers.** A return in the body or in a layer leaves the body or that
layer, and the code behind the placeholder of the layer around it comes next. -/
def nested : List Layer → Code → σ → Result σ
  | [], body, x => L.call body x
  | m :: layers, body, x =>
    match L.exec m.pre x with
    | .goesOn y => (nested layers body y).andThen (L.call m.post)
    | o => o.finish .done

/-- Some pieces of code one after the other, each of which a return leaves. -/
def closing : List Code → σ → Result σ
  | [], x => .done x
  | c :: cs, x => (L.call c x).andThen (closing cs)

theorem closing_concat (cs : List Code) (c : Code) (x : σ) :
    L.closing (cs ++ [c]) x = (L.closing cs x).andThen (L.call c) := by
  induction cs generalizing x with
  | nil => exact Result.andThen_done _
  | cons d cs ih =>
    rw [cons_append, closing, closing, Result.andThen_assoc]
    exact congrArg _ (funext ih)

/-- The code behind placeholders that a return passes over when all parts are run in one row:
that of the layers around the part in which the return stands, the inner ones first. -/
def passedOver : List Layer → Code → σ → List Code
  | [], _, _ => []
  | m :: layers, body, x =>
    match L.exec m.pre x with
    | .goesOn y =>
      match L.exec (flat layers body) y with
      | .returns _ => passedOver layers body y ++ [m.post]
      | _ => []
    | _ => []

/-- **A nested call by the parts in one row**: behind a return, the code that it passed over is
made up for. -/
theorem nested_eq (layers : List Layer) (body : Code) :
    L.nested layers body x = (L.exec (flat layers body) x).finish (L.closing (L.passedOver layers body x)) := by
  induction layers generalizing x with
  | nil =>
    rw [flat_nil]
    rfl
  | cons m layers ih =>
    rw [flat_cons, exec_append, nested, passedOver]
    cases L.exec m.pre x with
    | returns y => rfl
    | stops y => rfl
    | goesOn y =>
      dsimp only [Outcome.andThen]
      rw [ih, exec_append]
      cases L.exec (flat layers body) y with
      | stops z => rfl
      | returns z => exact (L.closing_concat _ m.post z).symm
      | goesOn z =>
        -- the inner layers are left as they should be, and a return behind leaves the outer one
        show (L.exec m.post z).finish .done = (L.exec m.post z).finish (L.closing [])
        rfl

/-- **When the parts in one row do what the layers do.** -/
theorem call_flat_eq_nested_iff (layers : List Layer) (body : Code) (x : σ) :
    L.call (flat layers body) x = L.nested layers body x ↔
      ∀ y, L.exec (flat layers body) x = .returns y → L.closing (L.passedOver layers body x) y = .done y := by
  rw [nested_eq, call]
  cases L.exec (flat layers body) x with
  | goesOn z => exact ⟨fun _ => nofun, fun _ => rfl⟩
  | stops z => exact ⟨fun _ => nofun, fun _ => rfl⟩
  | returns z =>
    constructor
    · rintro h _ ⟨⟩
      exact h.symm
    · intro h
      exact (h z rfl).symm

theorem passedOver_of_body {layers : List Layer} {body : Code} {x y z : σ}
    (hpre : L.exec (layers.flatMap Layer.pre) x = .goesOn y) (hbody : L.exec body y = .returns z) :
    L.exec (flat layers body) x = .returns z ∧
      L.passedOver layers body x = layers.reverse.map Layer.post := by
  induction layers generalizing x with
  | nil =>
    cases hpre
    rw [flat_nil]
    exact ⟨hbody, rfl⟩
  | cons m layers ih =>
    rw [flatMap_cons, exec_append] at hpre
    rw [flat_cons, exec_append, passedOver]
    cases hm : L.exec m.pre x with
    | returns u =>
      rw [hm] at hpre
      cases hpre
    | stops u =>
      rw [hm] at hpre
      cases hpre
    | goesOn u =>
      rw [hm] at hpre
      obtain ⟨hrun, hposts⟩ := ih hpre
      dsimp only [Outcome.andThen]
      rw [exec_append, hrun, hposts, reverse_cons, map_append]
      exact ⟨rfl, rfl⟩

end Meaning

end Runs

/-! ## Layers in the text -/

/-- What stands behind the semicolon of a placeholder, which may or may not belong to its range. -/
def BehindSemicolon (behind rest : Chars) : Prop :=
  behind = rest ∨ ∃ gap, behind = gap ++ ';' :: rest ∧ ∀ c ∈ gap, isBlank c = true

theorem trimLeft_gap {gap : Chars} (hgap : ∀ c ∈ gap, isBlank c) {c : Char} (hc : isBlank c = false)
    (t : Chars) : trimLeft (gap ++ c :: t) = c :: t := by
  rw [trimLeft, dropWhile_append_of_pos hgap, dropWhile_cons_of_neg (by simp [hc])]

theorem statementsOf?_behindPlaceholder {behind rest : Chars} (hbehind : BehindSemicolon behind rest)
    (h : statementsOf? rest = some c) : statementsOf? (behindPlaceholder behind) = some c := by
  have hkept : behindPlaceholder behind = trimLeft rest := by
    have hsemi : ∀ t, trimLeft rest ≠ ';' :: t := fun t => trimLeft_ne_semicolon h
    unfold behindPlaceholder
    rcases hbehind with rfl | ⟨gap, rfl, hgap⟩
    · split
      · exact absurd ‹_› (hsemi _)
      · dsimp only
        split
        · exact absurd ‹_› (hsemi _)
        · rfl
    · rw [trimLeft_gap hgap (by decide)]
      dsimp only
      split
      · exact absurd ‹_› (hsemi _)
      · rfl
  rw [hkept, statementsOf?_trimLeft, h]

theorem statementsOf?_wrap {name after : Chars} (hname : ∀ c ∈ name, c ≠ '\n' ∧ c ≠ '\r')
    {a b : Code} (ha : statementsOf? before = some a) (hb : statementsOf? code = some b)
    (hc : statementsOf? after = some c) :
    statementsOf? (wrap name before code after) = some (a ++ (b ++ c)) := by
  have hheader : statementsOf? ("\n        // Inline Modifier: ".toList ++ name) = some [] := by
    have hsplit : "\n        // Inline Modifier: ".toList =
        "\n        ".toList ++ "// Inline Modifier: ".toList := rfl
    have hgap : ∀ c ∈ "\n        ".toList, isBlank c := forall_mem_of_all rfl
    have htitle : ∀ c ∈ " Inline Modifier: ".toList, c ≠ '\n' ∧ c ≠ '\r' := forall_mem_of_all rfl
    rw [hsplit, append_assoc]
    exact statementsOf?_lineComment hgap (forall_mem_append.2 ⟨htitle, hname⟩)
  have hparts := statementsOf?_append hheader (statementsOf?_append ha (statementsOf?_append hb hc))
  rwa [nil_append] at hparts

theorem FirstPlaceholder.unique {items : List Json} {p q : Json} (hp : FirstPlaceholder items p)
    (hq : FirstPlaceholder items q) : p = q := by
  induction items with
  | nil =>
    obtain ⟨front, rest, he, -⟩ := hp
    cases front <;> cases he
  | cons r items ih =>
    rcases firstPlaceholder_cons.1 hp with ⟨hr, rfl⟩ | ⟨hr, hp⟩
    · rcases firstPlaceholder_cons.1 hq with ⟨-, rfl⟩ | ⟨hr', -⟩
      · rfl
      · exact absurd hr hr'
    · rcases firstPlaceholder_cons.1 hq with ⟨hr', -⟩ | ⟨-, hq⟩
      · exact absurd hr' hr
      · exact ih hp hq

theorem CodeOf.unique {definition : Members} {behind before' behind' : Chars}
    (h : CodeOf s definition before behind) (h' : CodeOf s definition before' behind') :
    before = before' ∧ behind = behind' := by
  obtain ⟨body, items, p, b, r, hbody, hitems, hp, hb, hr, -, -, hbefore, hbehind⟩ := h
  obtain ⟨body', items', p', b', r', hbody', hitems', hp', hb', hr', -, -, hbefore', hbehind'⟩ := h'
  cases hbody.symm.trans hbody'
  cases hitems.symm.trans hitems'
  obtain rfl := hp.unique hp'
  cases hb.symm.trans hb'
  cases hr.symm.trans hr'
  cases hbefore.symm.trans hbefore'
  cases hbehind.symm.trans hbehind'
  exact ⟨rfl, rfl⟩

/-- The statements before and behind the placeholder of the modifier that an invocation refers
to. -/
structure HasLayer (s : Bytes) (known : Assoc Key Members) (v : Json) (m : Layer) : Prop where
  /-- The name of the modifier has no line end. -/
  name : ∃ i, invocationOf v = .ok i ∧ ∀ c ∈ i.name.shown, c ≠ '\n' ∧ c ≠ '\r'
  code : ∃ definition before behind rest, Refers known v definition ∧ CodeOf s definition before behind ∧
    BehindSemicolon behind rest ∧ statementsOf? before = some m.pre ∧ statementsOf? rest = some m.post

/-- **One modifier** puts its statements around those of the code so far. -/
theorem statementsOf?_applyModifier {v : Json}
    (h : applyModifier s known w v = .ok w') {m : Layer} (hm : HasLayer s known v m)
    (hc : statementsOf? w.code = some c) : statementsOf? w'.code = some (m.pre ++ (c ++ m.post)) := by
  obtain ⟨i, hi, hname⟩ := hm.name
  obtain ⟨definition, before, behind, rest, ⟨i', hi', hfind⟩, hcode, hrest, hpre, hpost⟩ := hm.code
  cases hi.symm.trans hi'
  obtain ⟨i', hi', h⟩ := bind_ok.1 h
  cases hi.symm.trans hi'
  rw [hfind] at h
  obtain ⟨wrapping, hw, h⟩ := bind_ok.1 h
  rcases wrappingOf_ok hw with ⟨hnot, -⟩ | ⟨before', behind', hcode', rfl⟩
  · exact absurd ⟨before, behind, hcode⟩ hnot
  · obtain ⟨rfl, rfl⟩ := hcode.unique hcode'
    rw [← pure_ok.1 h]
    exact statementsOf?_wrap hname (statementsOf?_trimRight hpre) hc
      (statementsOf?_behindPlaceholder hrest hpost)

/-- **All modifiers of a function**, which are applied from the last to the first. -/
theorem statementsOf?_wrapAll {vs : List Json} {layers : List Layer}
    (h : wrapAll s known vs w = .ok w') (hlayers : Forall₂ (HasLayer s known) vs layers)
    {c : Code} (hc : statementsOf? w.code = some c) : statementsOf? w'.code = some (flat layers.reverse c) := by
  induction hlayers generalizing w c with
  | nil =>
    obtain rfl := Except.ok.inj h
    rw [reverse_nil, flat_nil, hc]
  | cons hm _ ih =>
    rw [wrapAll, foldlM_cons] at h
    obtain ⟨u, hu, h⟩ := bind_ok.1 h
    rw [reverse_cons, flat_concat]
    exact ih h (statementsOf?_applyModifier (noting_ok.1 hu) hm hc)

/-! ## Functions -/

/-- The turn of a function: what the text is before and behind it, on the way from the source to
the result. -/
structure Turn (source out : Chars) (tree : Json) (known : Assoc Key Members) (f : Json)
    (here next : Bytes × List String) : Prop where
  reached : ∃ front rest last, byRange (modified tree) = .ok (front ++ f :: rest) ∧
    front.foldlM (inlineInto (encode source) known) (encode source, []) = .ok here ∧
    rest.foldlM (inlineInto (encode source) known) next = .ok last ∧ decoded last.1 = .ok out
  taken : inlineInto (encode source) known here f = .ok next

theorem exists_turn {source out : Chars} {tree : Json} {remarks : List String}
    (h : inlineModifiersWith source tree = .ok (out, remarks))
    (hknown : numbered "ModifierDefinition" tree = .ok known) {f : Json} (hf : f ∈ modified tree) :
    ∃ here next, Turn source out tree known f here next := by
  obtain ⟨known', hknown', h⟩ := bind_ok.1 h
  obtain ⟨functions, hfunctions, h⟩ := bind_ok.1 h
  obtain ⟨last, hlast, h⟩ := bind_ok.1 h
  obtain ⟨text, htext, h⟩ := bind_ok.1 h
  cases pure_ok.1 h
  rw [noting_ok] at hknown' hfunctions htext
  cases hknown.symm.trans hknown'
  obtain ⟨front, rest, rfl⟩ := append_of_mem ((byRange_perm hfunctions).mem_iff.2 hf)
  obtain ⟨here, next, hfront, hstep, hrest⟩ := foldlM_append_cons.1 hlast
  exact ⟨here, next, ⟨front, rest, last, hfunctions, hfront, hrest, htext⟩, hstep⟩

/-- A function with a body is rewritten, from the code and the modifiers that it has. -/
theorem rewritten_of_bodyOf {f body : Json} {here next : Bytes × List String}
    (h : inlineInto s known here f = .ok next) (hbody : f.field "body" = .ok body) (hset : body.isSet)
    {r : Range} {modifiers : List Json} (hread : bodyOf s f body = .ok (r, code, modifiers)) :
    ∃ w, Rewritten s known f here next code modifiers w := by
  obtain ⟨body', hbody', hcase⟩ := inlineInto_ok h
  cases hbody.symm.trans hbody'
  rcases hcase with ⟨hunset, -⟩ | ⟨-, code', modifiers', w, hw⟩
  · rw [hset] at hunset
    cases hunset
  · obtain ⟨body', r', order, hbody', hread', -⟩ := hw.put
    cases hbody.symm.trans hbody'
    cases hread.symm.trans hread'
    exact ⟨w, hw⟩

/-- **What inlined modifiers do.** For every source and tree and every function with a body, let
the body and the modifiers of the function, in the order of its signature, be made of whole
statements. Then the new body has the statements before the placeholders from the first modifier
to the last, those of the body, and those behind the placeholders from the last to the first.
Whatever single statements do, running it comes to the same as the nested call exactly if the code
that a return passes over would do nothing. A return of the body passes over the code behind every
placeholder, which the nested call runs. -/
theorem inlined_runs_as_nested_iff {source out code : Chars} {tree f body : Json} {remarks : List String}
    {known : Assoc Key Members} {r : Range} {modifiers : List Json} {layers : List Layer} {own : Code}
    (h : inlineModifiersWith source tree = .ok (out, remarks))
    (hknown : numbered "ModifierDefinition" tree = .ok known) (hf : f ∈ modified tree)
    (hbody : f.field "body" = .ok body) (hset : body.isSet = true)
    (hread : bodyOf (encode source) f body = .ok (r, code, modifiers)) (hcode : statementsOf? code = some own)
    (hlayers : List.Forall₂ (HasLayer (encode source) known) modifiers.reverse layers) :
    ∃ here next w, Turn source out tree known f here next ∧
      Rewritten (encode source) known f here next code modifiers w ∧
      statementsOf? w.code = some (layers.flatMap Layer.pre ++ own ++ layers.reverse.flatMap Layer.post) ∧
      ∀ (σ : Type) (L : Meaning σ) (x : σ),
        (L.call (flat layers own) x = L.nested layers own x ↔
          ∀ y, L.exec (flat layers own) x = .returns y →
            L.closing (L.passedOver layers own x) y = .done y) ∧
        ∀ y z, L.exec (layers.flatMap Layer.pre) x = .goesOn y → L.exec own y = .returns z →
          L.call (flat layers own) x = .done z ∧
            L.nested layers own x = L.closing (layers.reverse.map Layer.post) z := by
  obtain ⟨here, next, hturn⟩ := exists_turn h hknown hf
  obtain ⟨w, hw⟩ := rewritten_of_bodyOf hturn.taken hbody hset hread
  have hreversed : List.Forall₂ (HasLayer (encode source) known) modifiers layers.reverse := by
    rwa [← List.forall₂_reverse_iff, List.reverse_reverse]
  have hstatements := statementsOf?_wrapAll hw.wrapped hreversed hcode
  rw [List.reverse_reverse] at hstatements
  refine ⟨here, next, w, hturn, hw, hstatements, fun σ L x => ⟨L.call_flat_eq_nested_iff layers own x, ?_⟩⟩
  intro y z hpre hown
  obtain ⟨hrun, hposts⟩ := L.passedOver_of_body hpre hown
  rw [L.nested_eq, Meaning.call, hrun, hposts]
  exact ⟨rfl, rfl⟩

/-- Statements are noted as they are run, and `return` leaves the code. -/
def noted : Meaning Code where
  run s x :=
    match s with
    | .word w _ :: _ => if w = "return".toList then .returns x else .goesOn (x ++ [s])
    | _ => .goesOn (x ++ [s])

/-- A modifier that locks and unlocks, and a function with it. -/
def lockedSource (own : Chars) : Chars :=
  "modifier m \x7b l(); _; u(); \x7d function f() m \x7b ".toList ++ own ++ " \x7d".toList

def lockDefinition : Members :=
  [("nodeType", .str "ModifierDefinition"), ("id", .int 1), ("body", .obj [
    ("src", .str "11:16:0"), ("statements", .arr [
      .obj [("nodeType", .str "PlaceholderStatement"), ("src", .str "18:1:0")]])])]

def lockInvocation : Json :=
  .obj [("src", .str "41:1:0"), ("modifierName", .obj [("name", .str "m"), ("referencedDeclaration", .int 1)])]

def lockedFunction (function body : String) : Json :=
  .obj [("nodeType", .str "FunctionDefinition"), ("src", .str function),
    ("body", .obj [("src", .str body)]), ("modifiers", .arr [lockInvocation])]

def lockedTree (function body : String) : Json :=
  .obj [("nodes", .arr [.obj lockDefinition, lockedFunction function body])]

/-- The code that the function gets. -/
def lockedCode (own : Chars) : Chars :=
  "\n        // Inline Modifier: m\n l();\n ".toList ++ own ++ " \nu(); ".toList

def lockedResult (own : Chars) : Chars :=
  "modifier m \x7b l(); _; u(); \x7d function f() \x7b ".toList ++ lockedCode own ++ " \x7d".toList

/-- The statement that calls a function without arguments. -/
def callTo (name : Char) : List Symbol :=
  [.word [name] false, .mark '(' true, .mark ')' true, .mark ';' true]

def returning : List Symbol :=
  [.word "return".toList false, .mark ';' true]

def lockLayer : Layer :=
  ⟨[callTo 'l'], [callTo 'u']⟩

theorem locked_hasLayer :
    HasLayer (encode (lockedSource "a();".toList)) [(.whole 1, lockDefinition)] lockInvocation lockLayer where
  name := ⟨_, rfl, forall_mem_of_all rfl⟩
  code := by
    have hcode : CodeOf (encode (lockedSource "a();".toList)) lockDefinition " l(); ".toList "; u(); ".toList :=
      ⟨_, _, _, ⟨11, 27⟩, ⟨18, 19⟩, rfl, rfl, ⟨[], [], rfl, ⟨_, rfl, rfl⟩, nofun⟩, by decide,
        by decide, by decide, by decide, by decide +kernel, by decide +kernel⟩
    exact ⟨_, _, _, " u(); ".toList, ⟨_, rfl, rfl⟩, hcode, .inr ⟨[], rfl, nofun⟩, by decide +kernel,
      by decide +kernel⟩

theorem locked_bodyOf :
    bodyOf (encode (lockedSource "a();".toList)) (lockedFunction "28:23:0" "43:8:0")
    (.obj [("src", .str "43:8:0")]) =
      .ok (⟨43, 51⟩, " a(); ".toList, [lockInvocation]) := by
  have hrange : rangeOf (.obj [("src", .str "43:8:0")]) = .ok ⟨43, 51⟩ := by decide
  have hcode : decoded (slice (encode (lockedSource "a();".toList)) (43 + 1) (51 - 1)) =
      .ok " a(); ".toList := by
    decide +kernel
  exact bind_ok.2 ⟨_, hrange, bind_ok.2 ⟨_, hcode, rfl⟩⟩

/-- A body that goes on to its end is followed by the code behind the placeholder. -/
theorem inlined_locked_body :
    ∃ known here next w, Turn (lockedSource "a();".toList) (lockedResult "a();".toList)
        (lockedTree "28:23:0" "43:8:0") known (lockedFunction "28:23:0" "43:8:0") here next ∧
      Rewritten (encode (lockedSource "a();".toList)) known (lockedFunction "28:23:0" "43:8:0") here next
        " a(); ".toList [lockInvocation] w ∧
      statementsOf? w.code = some [callTo 'l', callTo 'a', callTo 'u'] ∧
      noted.call (flat [lockLayer] [callTo 'a']) [] = noted.nested [lockLayer] [callTo 'a'] [] := by
  obtain ⟨here, next, w, hturn, hw, hstatements, hruns⟩ := inlined_runs_as_nested_iff
    (show inlineModifiersWith (lockedSource "a();".toList) (lockedTree "28:23:0" "43:8:0") =
      .ok (lockedResult "a();".toList, []) by decide +kernel)
    rfl (.head _) rfl rfl locked_bodyOf
    (show statementsOf? " a(); ".toList = some [callTo 'a'] by decide +kernel) (.cons locked_hasLayer .nil)
  refine ⟨_, here, next, w, hturn, hw, hstatements, (hruns Code noted []).1.2 fun y hy => ?_⟩
  have hend : noted.exec (flat [lockLayer] [callTo 'a']) [] =
      .goesOn [callTo 'l', callTo 'a', callTo 'u'] := by decide
  rw [hend] at hy
  cases hy

/-- A body that returns leaves the code of the modifier as well: the lock stays. -/
theorem return_keeps_lock :
    inlineModifiersWith (lockedSource "a(); return;".toList) (lockedTree "28:31:0" "43:16:0") =
        .ok (lockedResult "a(); return;".toList, []) ∧
      statementsOf? (lockedCode "a(); return;".toList) = some (flat [lockLayer] [callTo 'a', returning]) ∧
      noted.call (flat [lockLayer] [callTo 'a', returning]) [] = .done [callTo 'l', callTo 'a'] ∧
      noted.nested [lockLayer] [callTo 'a', returning] [] = .done [callTo 'l', callTo 'a', callTo 'u'] := by
  refine ⟨?_, ?_, ?_, ?_⟩
  · decide +kernel
  · decide +kernel
  · decide
  · decide

end Obscura.Flow
