import Obscura.Proofs.Bodies
import Obscura.Proofs.Directives

/-
  The block of accessors as it is read. Behind a brace it declares the functions of
  the tables that it holds and leaves the rest of the outline as it was
  (`run_accessorBlock`). In a comment or a literal nothing is made of it.
-/

namespace Obscura.Literal.Outline

open Text Layout Number Expression List Reader

variable {c : Char} {s w : Chars} {x : Outline}

/-! ## Texts that declare nothing -/

/-- The outline right behind a brace or a semicolon in a body. -/
structure Calm (x : Outline) : Prop where
  word : x.word = []
  awaits : x.awaits = false
  heads : x.heads = false
  depth : x.depth ≠ 0

theorem Calm.eq (h : Calm x) : { x with word := [] } = x := by
  rw [← h.word]

theorem Calm.settle (h : Calm x) (hw : w ≠ "function".toList) : { x with word := w }.settle = x := by
  obtain ⟨word, awaits, heads, depth, closed, current⟩ := x
  obtain ⟨hword, hawaits, hheads, hdepth⟩ := h
  dsimp only at hword hawaits hheads hdepth
  subst hword hawaits
  by_cases hnil : w = []
  · subst hnil
    exact settle_of_nil rfl
  · rw [Outline.settle, if_neg hnil, if_neg hw, if_neg fun h => hdepth h.2,
      if_neg fun h => Bool.false_ne_true h.1]

theorem Calm.mark (h : Calm x) (hopen : c ≠ '\x7b') (hclose : c ≠ '\x7d') : x.mark c = x := by
  obtain ⟨word, awaits, heads, depth, closed, current⟩ := x
  obtain ⟨hword, hawaits, hheads, hdepth⟩ := h
  dsimp only at hword hawaits hheads hdepth
  subst hword hawaits hheads
  rw [Outline.mark, if_neg hopen, if_neg hclose]
  exact ite_self _

/-- Marks and blanks between the words of a block. -/
def isSeparator (c : Char) : Bool :=
  " \n()[];=".toList.contains c

theorem Calm.step_separator (h : Calm x) (hw : w ≠ "function".toList)
    (hc : isSeparator c) : reader.step (.code, { x with word := w }) c = (.code, x) := by
  have hcases : ∀ d ∈ " \n()[];=".toList, isBlank d ∨ (d.toNat < 128 ∧
      (d.isAlphanum || d == '_' || d == '$' || isBlank d || d == '/' || isQuote d) = false) ∧
        d ≠ '\x7b' ∧ d ≠ '\x7d' := forall_mem_of_all rfl
  rcases hcases c (contains_iff_mem.1 hc) with hblank | ⟨⟨hascii, hsymbol⟩, hopen, hclose⟩
  · rw [step_blank hblank]
    exact congrArg (Prod.mk _) (h.settle hw)
  · rw [step_mark (isMark_of_symbol hascii hsymbol)]
    refine congrArg (Prod.mk _) ?_
    show ({ x with word := w }.settle).mark c = x
    rw [h.settle hw, h.mark hopen hclose]

theorem run_word (hw : ∀ c ∈ w, isNameChar c) :
    reader.run (.code, x) w = (.code, { x with word := x.word ++ w }) := by
  refine run_name (fun x w => { x with word := x.word ++ w }) (fun x => ?_) (fun x c w => ?_) (x := x) hw
  · rw [append_nil]
  · rw [append_cons]
    rfl

/-- The text behind a part of a word is made of words and separators, ends with a separator,
and has no word `function`. -/
def isInert (w : Chars) : Chars → Bool
  | [] => w.isEmpty
  | c :: s =>
    if c.isAlphanum || c == '_' then isInert (w ++ [c]) s
    else w != "function".toList && isSeparator c && isInert [] s

theorem isNameChar_of_isAlphanum (h : (c.isAlphanum || c == '_')) : isNameChar c := by
  have hword : isWord c := isWord_of_isAlphanum (by simpa using h)
  rw [isNameChar, hword]
  rfl

theorem Calm.run_inert (h : Calm x) (hs : isInert w s) :
    reader.run (.code, { x with word := w }) s = (.code, x) := by
  induction s generalizing w with
  | nil =>
    rw [isEmpty_iff.1 hs, run_nil, h.eq]
  | cons c s ih =>
    rw [run_cons]
    rw [isInert] at hs
    split at hs
    · rename_i hc
      rw [step_letter (isNameChar_of_isAlphanum hc)]
      exact ih hs
    · rw [Bool.and_eq_true, Bool.and_eq_true, bne_iff_ne] at hs
      rw [h.step_separator hs.1.1 hs.1.2]
      have hrest := ih hs.2
      rwa [h.eq] at hrest

/-- Nothing in a body changes by the text. -/
def Inert (s : Chars) : Prop :=
  ∀ x, Calm x → reader.run (.code, x) s = (.code, x)

theorem inert_of_isInert (hs : isInert [] s) : Inert s := by
  intro x hx
  have hrun := hx.run_inert hs
  rwa [hx.eq] at hrun

theorem Inert.append {t : Chars} (hs : Inert s) (ht : Inert t) : Inert (s ++ t) := by
  intro x hx
  rw [run_append, hs x hx, ht x hx]

theorem inert_slot {a b : Chars} (ha : isInert [] a)
    (hw : ∀ d ∈ w, isNameChar d) (hne : w ≠ "function".toList) (hc : isSeparator c)
    (hb : isInert [] b) : Inert (a ++ (w ++ c :: b)) := by
  intro x hx
  have hword := run_word (x := x) hw
  rw [hx.word, nil_append] at hword
  rw [run_append, inert_of_isInert ha x hx, run_append, hword, run_cons,
    hx.step_separator hne hc, inert_of_isInert hb x hx]

/-! ## Functions -/

/-- The outline with one more accessor in the body, if the place is directly in it. -/
def declare (x : Outline) (name : Chars) : Outline :=
  if x.depth = 1 then { x with current := x.current.map (· ++ [name]) } else x

theorem Calm.declare (h : Calm x) (name : Chars) : Calm (x.declare name) := by
  unfold Outline.declare
  split
  · exact ⟨h.word, h.awaits, h.heads, h.depth⟩
  · exact h

theorem name_of_mem_accessorNames {name : Chars} (h : name ∈ accessorNames) :
    name ≠ [] ∧ name ≠ "function".toList ∧ ∀ c ∈ name, (c.isAlphanum || c == '_') := by
  have hall : ∀ n ∈ accessorNames, n ≠ [] ∧ n ≠ "function".toList ∧
      (n.all fun c => c.isAlphanum || c == '_') = true :=
    forall_mem_of_all rfl
  obtain ⟨hne, hfunction, hchars⟩ := hall name h
  exact ⟨hne, hfunction, all_eq_true.1 hchars⟩

theorem Calm.settle_name (h : Calm x) {name : Chars} (hname : name ∈ accessorNames) :
    { x with word := name, awaits := true }.settle = x.declare name := by
  obtain ⟨hne, hfunction, -⟩ := name_of_mem_accessorNames hname
  obtain ⟨word, awaits, heads, depth, closed, current⟩ := x
  obtain ⟨hword, hawaits, hheads, hdepth⟩ := h
  dsimp only at hword hawaits hheads hdepth
  subst hword hawaits
  rw [Outline.settle, if_neg hne, if_neg hfunction, if_neg fun h => hdepth h.2, Outline.declare]
  by_cases hone : depth = 1
  · rw [if_pos ⟨rfl, hone, hname⟩, if_pos hone]
  · rw [if_neg fun h => hone h.2.1, if_neg hone]

theorem Calm.run_head (h : Calm x) {name : Chars} (hname : name ∈ accessorNames) :
    reader.run (.code, x) ("    ".toList ++ ("function".toList ++ ' ' :: (name ++ ['(']))) =
      (.code, x.declare name) := by
  have hfunction : ∀ c ∈ "function".toList, (c.isAlphanum || c == '_') := forall_mem_of_all rfl
  have hspace : isBlank ' ' := by decide
  have hmark : isMark '(' := isMark_of_mem rfl
  have hawaits : { x with word := "function".toList }.settle = { x with word := [], awaits := true } := rfl
  rw [run_append, inert_of_isInert (by decide) x h, run_append,
    run_word fun c hc => isNameChar_of_isAlphanum (hfunction c hc), h.word, nil_append, run_cons,
    step_blank hspace, blank_reader, hawaits, run_append,
    run_word fun c hc => isNameChar_of_isAlphanum ((name_of_mem_accessorNames hname).2.2 c hc), nil_append,
    run_cons, step_mark hmark, run_nil, mark_reader, h.settle_name hname,
    (h.declare name).mark (by decide) (by decide)]

theorem Calm.mark_open (h : Calm x) : x.settle.mark '\x7b' = { x with depth := x.depth + 1 } := by
  rw [settle_of_nil h.word, Outline.mark, if_pos rfl, if_neg h.depth, h.awaits, h.heads]

theorem Calm.mark_close (h : Calm x) : { x with depth := x.depth + 1 }.settle.mark '\x7d' = x := by
  have hdepth : ¬x.depth + 1 ≤ 1 := by
    have := h.depth
    omega
  have hword : { x with depth := x.depth + 1 }.settle = { x with depth := x.depth + 1 } := settle_of_nil h.word
  obtain ⟨word, awaits, heads, depth, closed, current⟩ := x
  obtain ⟨-, hawaits, hheads, -⟩ := h
  dsimp only at hawaits hheads
  subst hawaits hheads
  rw [hword, Outline.mark, if_neg (by decide), if_pos rfl, if_neg hdepth, Nat.add_sub_cancel]

theorem Calm.run_braces (h : Calm x) {body : Chars} (hbody : Inert body) :
    reader.run (.code, x) ('\x7b' :: (body ++ ("    ".toList ++ ['\x7d', '\n']))) = (.code, x) := by
  have hopen : isMark '\x7b' := isMark_of_mem rfl
  have hclose : isMark '\x7d' := isMark_of_mem rfl
  have hcalm : Calm { x with depth := x.depth + 1 } := ⟨h.word, h.awaits, h.heads, Nat.succ_ne_zero _⟩
  have hfeed : isBlank '\n' := by decide
  rw [run_cons, step_mark hopen, mark_reader, h.mark_open, run_append, hbody _ hcalm,
    run_append, inert_of_isInert (by decide) _ hcalm, run_cons,
    step_mark hclose, mark_reader,
    h.mark_close, run_cons, step_blank hfeed, run_nil, blank_reader, settle_of_nil h.word]

/-- The text of lines, each with its end. -/
def indented (ls : List Chars) : Chars :=
  ls.flatMap fun l => "    ".toList ++ l ++ ['\n']

/-- A function of the block: its head, the lines of its body and its end. -/
theorem Calm.run_function (h : Calm x) {name params : Chars} {body : List Chars}
    (hname : name ∈ accessorNames) (hparams : isInert [] params)
    (hbody : ∀ l ∈ body, Inert ("    ".toList ++ l ++ ['\n'])) :
    reader.run (.code, x)
      (indented (("function ".toList ++ (name ++ '(' :: params ++ ['\x7b'])) :: (body ++ [['\x7d']]))) =
      (.code, x.declare name) := by
  have hlines : Inert ('\n' :: indented body) := by
    refine (inert_of_isInert (s := ['\n']) (by decide)).append ?_
    induction body with
    | nil => exact fun x _ => rfl
    | cons l body ih =>
      obtain ⟨hl, hbody⟩ := forall_mem_cons.1 hbody
      exact hl.append (ih hbody)
  have htext : indented (("function ".toList ++ (name ++ '(' :: params ++ ['\x7b'])) :: (body ++ [['\x7d']])) =
      ("    ".toList ++ ("function".toList ++ ' ' :: (name ++ ['(']))) ++
        (params ++ '\x7b' :: (('\n' :: indented body) ++ ("    ".toList ++ ['\x7d', '\n']))) := by
    have hfunction : "function ".toList = "function".toList ++ [' '] := rfl
    rw [indented, flatMap_cons, flatMap_append, indented, hfunction]
    simp only [flatMap_cons, flatMap_nil, append_assoc, cons_append, nil_append, append_nil]
  rw [htext, run_append, h.run_head hname, run_append,
    inert_of_isInert hparams _ (h.declare name),
    (h.declare name).run_braces hlines]

/-! ## The functions of a table -/

theorem isNameChar_of_isConstant (h : IsConstant w) :
    (∀ c ∈ w, isNameChar c) ∧ w ≠ "function".toList := by
  obtain ⟨⟨-, hword⟩, -⟩ := isConstant_iff.2 h
  refine ⟨fun c hc => by rw [isNameChar, hword c hc]; rfl, ?_⟩
  rcases h with rfl | rfl | ⟨-, hdecimal⟩
  · decide
  · decide
  · rintro rfl
    have hf : isDecimal 'f' = false := by decide
    rw [hdecimal 'f' (by decide)] at hf
    cases hf

theorem isConstant_digits (n : Nat) : IsConstant (digits n) :=
  .inr (.inr ⟨digits_ne_nil n, fun c hc => isDecimal_of_isDigit (isDigit_digits n c hc)⟩)

variable {values : List Chars}

theorem inert_entryLines (hvalues : ∀ v ∈ values, IsConstant v) (i : Nat) :
    ∀ l ∈ entryLines i values, Inert ("    ".toList ++ l ++ ['\n']) := by
  induction values generalizing i with
  | nil => exact fun l hl => nomatch hl
  | cons v values ih =>
    obtain ⟨hv, hvalues⟩ := forall_mem_cons.1 hvalues
    obtain ⟨hindex, hindexne⟩ := isNameChar_of_isConstant (isConstant_digits i)
    obtain ⟨hvalue, hvaluene⟩ := isNameChar_of_isConstant hv
    refine forall_mem_cons.2 ⟨?_, ih hvalues (i + 1)⟩
    have hleft : Inert ("        t[".toList ++ (digits i ++ ']' :: " = ".toList)) :=
      inert_slot (by decide) hindex hindexne (by decide) (by decide)
    have hright : Inert ([] ++ (v ++ ';' :: ['\n'])) :=
      inert_slot (by decide) hvalue hvaluene (by decide) (by decide)
    have htext : "    ".toList ++ ("    t[".toList ++ digits i ++ "] = ".toList ++ v ++ ";".toList) ++ ['\n'] =
        ("        t[".toList ++ (digits i ++ ']' :: " = ".toList)) ++ ([] ++ (v ++ ';' :: ['\n'])) := by
      simp
    rw [htext]
    exact hleft.append hright

/-- The texts around the values of a table and its accessor declare nothing else. -/
structure Spelled (plural singular type : String) : Prop where
  table : ("__const_" ++ plural).toList ∈ accessorNames
  getter : ("__get_" ++ singular).toList ∈ accessorNames
  tableHead : isInert [] (") internal pure returns (" ++ type ++ "[] memory t) ").toList = true
  allocation : isInert [] ("        t = new " ++ type ++ "[](").toList = true
  getterHead : isInert [] ("uint idx) internal pure returns (" ++ type ++ ") ").toList = true
  call : isInert [] ("        " ++ type ++ "[] memory t = __const_" ++ plural ++ "();\n").toList = true

theorem spelled_ints : Spelled "ints" "int" "uint256" where
  table := by decide
  getter := by decide
  tableHead := by decide
  allocation := by decide
  getterHead := by decide
  call := by decide

theorem spelled_bools : Spelled "bools" "bool" "bool" where
  table := by decide
  getter := by decide
  tableHead := by decide
  allocation := by decide
  getterHead := by decide
  call := by decide

section Spelled

variable {plural singular type : String} (hspelled : Spelled plural singular type)

include hspelled

theorem Calm.run_tableLines (h : Calm x)
    (hvalues : ∀ v ∈ values, IsConstant v) :
    reader.run (.code, x) (indented (tableLines plural type values)) =
      (.code, x.declare ("__const_" ++ plural).toList) := by
  obtain ⟨hsize, hsizene⟩ := isNameChar_of_isConstant (isConstant_digits values.length)
  have hallocation : Inert (("        t = new " ++ type ++ "[](").toList ++
      (digits values.length ++ ')' :: [';', '\n'])) :=
    inert_slot hspelled.allocation hsize hsizene (by decide) (by decide)
  have hlines : tableLines plural type values =
      ("function ".toList ++ (("__const_" ++ plural).toList ++
        '(' :: (") internal pure returns (" ++ type ++ "[] memory t) ").toList ++ ['\x7b'])) ::
      (("    t = new ".toList ++ type.toList ++ "[](".toList ++ digits values.length ++ ");".toList) ::
        entryLines 0 values ++ [['\x7d']]) := by
    simp [tableLines]
  rw [hlines]
  refine h.run_function hspelled.table hspelled.tableHead (forall_mem_cons.2 ⟨?_, inert_entryLines hvalues 0⟩)
  simpa using hallocation

theorem Calm.run_getterLines (h : Calm x) :
    reader.run (.code, x) (indented (getterLines plural singular type)) =
      (.code, x.declare ("__get_" ++ singular).toList) := by
  have hlines : getterLines plural singular type =
      ("function ".toList ++ (("__get_" ++ singular).toList ++
        '(' :: ("uint idx) internal pure returns (" ++ type ++ ") ").toList ++ ['\x7b'])) ::
      ([("    " ++ type ++ "[] memory t = __const_" ++ plural ++ "();").toList,
        "    return t[idx];".toList] ++ [['\x7d']]) := by
    simp [getterLines]
  rw [hlines]
  refine h.run_function hspelled.getter hspelled.getterHead (forall_mem_cons.2 ⟨?_, forall_mem_singleton.2 ?_⟩)
  · simpa using inert_of_isInert hspelled.call
  · exact inert_of_isInert (by decide)

end Spelled

/-! ## The block -/

theorem foldl_declare (names : List Chars) (x : Outline) :
    names.foldl declare x = if x.depth = 1 then { x with current := x.current.map (· ++ names) } else x := by
  induction names generalizing x with
  | nil => simp
  | cons name names ih =>
    rw [foldl_cons, ih, declare]
    by_cases hone : x.depth = 1
    · rw [if_pos hone, if_pos hone, if_pos hone, Option.map_map]
      refine congrArg (fun u => { x with current := Option.map u x.current }) (funext fun ns => ?_)
      exact (append_cons ns name names).symm
    · rw [if_neg hone, if_neg hone, if_neg hone]

theorem Calm.foldl_declare (h : Calm x) (names : List Chars) : Calm (names.foldl Outline.declare x) := by
  induction names generalizing x with
  | nil => exact h
  | cons name names ih => exact ih (h.declare name)

/-- The functions that are written for a table. -/
def namesFor (plural singular : String) (values : List Chars) : List Chars :=
  if values.isEmpty then [] else [("__const_" ++ plural).toList, ("__get_" ++ singular).toList]

theorem Calm.run_accessorLines (h : Calm x) {plural singular type : String}
    (hspelled : Spelled plural singular type) (hvalues : ∀ v ∈ values, IsConstant v) :
    reader.run (.code, x) (indented (accessorLines plural singular type values)) =
      (.code, (namesFor plural singular values).foldl Outline.declare x) := by
  rw [accessorLines, namesFor]
  split
  · rfl
  · rw [indented, flatMap_append, run_append]
    show reader.run (reader.run _ (indented _)) (indented _) = _
    rw [h.run_tableLines hspelled hvalues, (h.declare _).run_getterLines hspelled]
    rfl

theorem unlines_concat {ls : List Chars} (hne : ls ≠ []) :
    unlines (ls.map fun l => "    ".toList ++ l) ++ ['\n'] = indented ls := by
  induction ls with
  | nil => exact absurd rfl hne
  | cons l ls ih =>
    by_cases hnil : ls = []
    · subst hnil
      exact (append_nil _).symm
    · have hmap : ls.map (fun l => "    ".toList ++ l) ≠ [] := by simpa using hnil
      rw [map_cons, unlines, joinWith, append_assoc, append_assoc]
      · show _ ++ (_ ++ (unlines _ ++ _)) = _
        rw [ih hnil, ← append_assoc]
        rfl
      · exact hmap

end Obscura.Literal.Outline

namespace Obscura.Literal

open Text Layout Number Expression List

/-- The functions that the block of accessors declares. -/
def declaredNames (ints bools : List Chars) : List Chars :=
  Outline.namesFor "ints" "int" ints ++ Outline.namesFor "bools" "bool" bools

namespace Outline

variable {ints bools : List Chars}

theorem accessorBlock_eq (hne : accessorBlock ints bools ≠ []) :
    '\n' :: accessorBlock ints bools =
      "\n\n    ".toList ++ (('/' :: '/' ::
          " === static data accessors inserted by static_data_obfuscator ===".toList ++ ['\n']) ++
        (indented (accessorLines "ints" "int" "uint256" ints) ++
          indented (accessorLines "bools" "bool" "bool" bools))) := by
  unfold accessorBlock at hne ⊢
  dsimp only at hne ⊢
  split at hne
  · exact absurd rfl hne
  · rename_i hlines
    rw [if_neg hlines, append_assoc, unlines_concat fun hnil => hlines (isEmpty_iff.2 hnil), indented,
      flatMap_append]
    rfl

/-- **The block behind a brace.** It declares the functions of its tables, and nothing else changes. -/
theorem Calm.run_accessorBlock {x : Outline} (h : Calm x) (hints : ∀ v ∈ ints, IsConstant v)
    (hbools : ∀ v ∈ bools, IsConstant v) (hne : accessorBlock ints bools ≠ []) :
    reader.run (.code, x) ('\n' :: accessorBlock ints bools) =
      (.code, if x.depth = 1 then
        { x with current := x.current.map (· ++ declaredNames ints bools) } else x) := by
  have hcomment : ∀ c ∈ " === static data accessors inserted by static_data_obfuscator ===".toList,
      c ≠ '\n' ∧ c ≠ '\r' :=
    forall_mem_of_all rfl
  rw [accessorBlock_eq hne, Reader.run_append, inert_of_isInert (by decide) x h, Reader.run_append,
    Reader.run_lineComment hcomment, blank_reader, blank_reader, settle_of_nil h.word, settle_of_nil h.word,
    Reader.run_append, h.run_accessorLines spelled_ints hints,
    (h.foldl_declare _).run_accessorLines spelled_bools hbools, ← foldl_append]
  exact congrArg (Prod.mk _) (Outline.foldl_declare _ x)

/-! ## The block in comments and literals -/

/-- The character ends neither a block comment nor a literal. -/
def isQuiet (c : Char) : Bool :=
  c != '*' && c != '\\' && !isQuote c

theorem isQuiet_of_isWord {c : Char} (h : isWord c) : isQuiet c := by
  have hne {d : Char} (hd : isWord d = false) : c ≠ d := by
    rintro rfl
    rw [h] at hd
    cases hd
  have hstar : isWord '*' = false := isWord_of_symbol (by decide) rfl
  have hbackslash : isWord '\\' = false := isWord_of_symbol (by decide) rfl
  rw [isQuiet, bne_iff_ne.2 (hne hstar), bne_iff_ne.2 (hne hbackslash), isQuote_of_isWord h]
  rfl

theorem all_isQuiet_of_isConstant {w : Chars} (h : IsConstant w) : w.all isQuiet :=
  all_eq_true.2 fun c hc => isQuiet_of_isWord ((isConstant_iff.2 h).1.2 c hc)

theorem all_entryLines (hvalues : ∀ v ∈ values, IsConstant v) (i : Nat) :
    (entryLines i values).all (·.all isQuiet) := by
  induction values generalizing i with
  | nil => rfl
  | cons v values ih =>
    obtain ⟨hv, hvalues⟩ := forall_mem_cons.1 hvalues
    have hopen : "    t[".toList.all isQuiet := by decide
    have hmiddle : "] = ".toList.all isQuiet := by decide
    have hend : ";".toList.all isQuiet := by decide
    rw [entryLines, all_cons, all_append, all_append, all_append, all_append, hopen, hmiddle,
      hend, all_isQuiet_of_isConstant (isConstant_digits i), all_isQuiet_of_isConstant hv, ih hvalues]
    rfl

theorem all_accessorLines {plural singular type : String}
    (hfixed : (tableLines plural type [] ++ getterLines plural singular type).all (·.all isQuiet))
    (hvalues : ∀ v ∈ values, IsConstant v) :
    (accessorLines plural singular type values).all (·.all isQuiet) := by
  have hsize := all_isQuiet_of_isConstant (isConstant_digits values.length)
  have hentries := all_entryLines hvalues 0
  unfold accessorLines
  split
  · rfl
  · simp only [tableLines, entryLines, all_cons, all_append, nil_append, Bool.and_eq_true] at hfixed ⊢
    obtain ⟨⟨hhead, hallocation, hend⟩, hgetter⟩ := hfixed
    exact ⟨⟨hhead, ⟨⟨hallocation.1.1, hsize⟩, hallocation.2⟩, hentries, hend⟩, hgetter⟩

theorem isQuiet_of_mem_accessorBlock (hints : ∀ v ∈ ints, IsConstant v) (hbools : ∀ v ∈ bools, IsConstant v) :
    ∀ c ∈ '\n' :: accessorBlock ints bools, isQuiet c := by
  by_cases hne : accessorBlock ints bools = []
  · rw [hne]
    exact forall_mem_of_all rfl
  · have hlines {ls : List Chars} (hls : ls.all (·.all isQuiet)) : ∀ c ∈ indented ls, isQuiet c := by
      intro c hc
      obtain ⟨l, hl, hc⟩ := mem_flatMap.1 hc
      rw [mem_append, mem_append] at hc
      rcases hc with (hc | hc) | hc
      · exact forall_mem_of_all (P := (isQuiet · = true)) (by decide) c hc
      · exact all_eq_true.1 (all_eq_true.1 hls l hl) c hc
      · exact forall_mem_of_all (P := (isQuiet · = true)) (by decide) c hc
    rw [accessorBlock_eq hne]
    refine forall_mem_append.2 ⟨forall_mem_of_all rfl, forall_mem_append.2 ⟨forall_mem_of_all rfl, ?_⟩⟩
    exact forall_mem_append.2 ⟨hlines (all_accessorLines (by decide) hints),
      hlines (all_accessorLines (by decide) hbools)⟩

end Outline

end Obscura.Literal
