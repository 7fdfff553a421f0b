import Obscura.Proofs.Call
import Obscura.Proofs.Locals

/-
  Where a contract takes declarations. The position is the start of the line
  behind the first opening brace in the range of the contract, and the search for
  the end of that line stops neither at the closing brace nor at the end of the
  range. So the position lies in the body exactly if the line ends in the body,
  or if it is the last line of the text. Grouping and promotion compute the
  position in the same way, for one contract and for a whole tree.
-/

namespace Obscura.Storage

open Text Ast Json
open List hiding findIdx? lookup

/-! ## Searching for one byte -/

section Search

variable {α : Type} [BEq α] [LawfulBEq α] {b c : α} {u v : Bytes}

theorem startsWith_singleton (s : List α) : startsWith [b] (c :: s) = (b == c) := by
  by_cases h : b = c <;> simp [startsWith, stripFront?, h]

theorem findIdx?_eq_none {s : List α} (h : b ∉ s) : findIdx? [b] s = none := by
  induction s with
  | nil => rfl
  | cons c s ih =>
    have hne : b ≠ c := fun e => h (e ▸ mem_cons_self)
    simp [findIdx?, startsWith_singleton, hne, ih fun hb => h (mem_cons_of_mem c hb)]

theorem findIdx?_append_cons {u : List α} (h : b ∉ u) (v : List α) :
    findIdx? [b] (u ++ b :: v) = some u.length := by
  induction u with
  | nil => simp [findIdx?, startsWith_singleton]
  | cons c u ih =>
    have hne : b ≠ c := fun e => h (e ▸ mem_cons_self)
    simp [findIdx?, startsWith_singleton, hne, ih fun hb => h (mem_cons_of_mem c hb)]

theorem findBytes?_append (p v : Bytes) :
    findBytes? p (u ++ v) u.length = (findIdx? p v).map (· + u.length) := by
  simp [findBytes?, findFrom?]

theorem slice_append (u v : Bytes) (n : Nat) : slice (u ++ v) u.length (u.length + n) = v.take n := by
  have hstop : place (u ++ v).length (u.length + n) = u.length + min n v.length := by
    rw [show (u.length + n : Int) = (u.length + n : Nat) by simp, place_ofNat, length_append]
    omega
  rw [slice, hstop, place_ofNat_of_le (by simp), take_length_add_append, drop_left]
  simp

end Search

/-! ## The next line -/

section NextLine

variable {u v w : Bytes}

/-- Behind a position with no line feed behind it there is no next line. -/
theorem nextLine_of_not_mem (h : 10 ∉ v) : nextLine (u ++ v) u.length = u.length := by
  have hcrlf : v.take 2 ≠ [13, 10] := fun e => h (mem_of_mem_take (e ▸ by decide : 10 ∈ v.take 2))
  have hfeed : v.take 1 ≠ [10] := fun e => h (mem_of_mem_take (e ▸ by decide : 10 ∈ v.take 1))
  have h2 := slice_append u v 2
  have h1 := slice_append u v 1
  push_cast at h1 h2
  simp only [nextLine, h2, h1, hcrlf, hfeed, if_false, findBytes?_append, findIdx?_eq_none h, Option.map_none]

/-- The next line starts behind the first line feed; a carriage return before it
makes no difference. -/
theorem nextLine_of_feed (h : 10 ∉ v) :
    nextLine (u ++ (v ++ 10 :: w)) u.length = (u.length + v.length + 1 : Nat) := by
  have h2 := slice_append u (v ++ 10 :: w) 2
  have h1 := slice_append u (v ++ 10 :: w) 1
  push_cast at h1 h2
  simp only [nextLine, h2, h1, findBytes?_append, findIdx?_append_cons h, Option.map_some]
  rcases v with _ | ⟨c, _ | ⟨d, v⟩⟩
  · simp
  · by_cases hc : c = 13
    · simp [hc]
      omega
    · have hfeed : c ≠ 10 := fun e => h (e ▸ mem_cons_self)
      simp [hc, hfeed]
      omega
  · have hc : c ≠ 10 := fun e => h (e ▸ mem_cons_self)
    have hd : d ≠ 10 := fun e => h (e ▸ mem_cons_of_mem c mem_cons_self)
    simp [hc, hd]
    omega

/-- If a line feed follows in `v`, the next line starts in `v` or right behind it. -/
theorem nextLine_of_mem (h : 10 ∈ v) :
    (u.length : Int) < nextLine (u ++ (v ++ w)) u.length ∧
      nextLine (u ++ (v ++ w)) u.length ≤ (u.length + v.length : Nat) := by
  obtain ⟨x, y, rfl, hx⟩ := eq_append_cons_of_mem h
  rw [append_assoc, cons_append, nextLine_of_feed hx]
  simp only [length_append, length_cons]
  omega

theorem nextLine_skip (hv : 10 ∉ v) (hw : 10 ∈ w) :
    nextLine (u ++ (v ++ w)) u.length = nextLine ((u ++ v) ++ w) (u ++ v).length := by
  obtain ⟨x, y, rfl, hx⟩ := eq_append_cons_of_mem hw
  have hvx : 10 ∉ v ++ x := by simp [hv, hx]
  rw [← append_assoc v, nextLine_of_feed hvx, nextLine_of_feed hx]
  simp only [length_append]
  omega

/-- The next line starts in `m`, behind bytes `v` without a line feed, if `m` has
one, or if there is none at all and nothing stands between. -/
theorem nextLine_within_iff {m : Bytes} (hv : 10 ∉ v) :
    ((u.length + v.length : Nat) ≤ nextLine (u ++ (v ++ (m ++ w))) u.length ∧
      nextLine (u ++ (v ++ (m ++ w))) u.length ≤ (u.length + v.length + m.length : Nat)) ↔
      10 ∈ m ∨ v = [] ∧ 10 ∉ w := by
  by_cases hm : 10 ∈ m
  · have hb := nextLine_of_mem (u := u ++ v) (w := w) hm
    rw [nextLine_skip hv (mem_append_left w hm)]
    simp only [hm, true_or, iff_true]
    simp only [length_append] at hb ⊢
    omega
  have hvm : 10 ∉ v ++ m := by simp [hv, hm]
  rw [← append_assoc v]
  by_cases hw : 10 ∈ w
  · have hb := nextLine_of_mem (u := u ++ (v ++ m)) (w := []) hw
    rw [nextLine_skip hvm hw]
    simp only [hm, hw, not_true, and_false, or_self, iff_false]
    simp only [append_nil, length_append] at hb ⊢
    omega
  · have hnone : 10 ∉ (v ++ m) ++ w := by simp [hv, hm, hw]
    rw [nextLine_of_not_mem hnone]
    simp only [hm, hw, not_false_iff, and_true, false_or, ← length_eq_zero_iff]
    omega

end NextLine

/-! ## Contracts in braces -/

/-- A contract in a text: what stands before it, its head up to the opening
brace, its body and what stands behind the closing brace. The head can hold
braces too, in its comments. -/
structure Braced where
  before : Bytes
  head : Bytes
  body : Bytes
  behind : Bytes

namespace Braced

variable (c : Braced)

def bytes : Bytes :=
  c.head ++ 123 :: (c.body ++ [125])

def text : Bytes :=
  c.before ++ (c.bytes ++ c.behind)

/-- The range of the contract in the text. -/
def range : Range :=
  ⟨c.before.length, (c.before.length + c.bytes.length : Nat)⟩

/-- Where the opening brace stands. -/
def opening : Nat :=
  c.before.length + c.head.length

/-- Where the closing brace stands. -/
def closing : Nat :=
  c.opening + 1 + c.body.length

/-- The position lies behind the opening brace and not behind the closing one. -/
def Inside (p : Int) : Prop :=
  c.opening < p ∧ p ≤ c.closing

instance (p : Int) : Decidable (c.Inside p) :=
  inferInstanceAs (Decidable (_ ∧ _))

/-- The first line break behind the first brace of the contract lies in the body. -/
def EndsLineInBody : Prop :=
  10 ∉ c.head.dropWhile (· != 123) ∧ 10 ∈ c.body

/-- The opening brace is the first one and no line break stands behind it. -/
def OpensOnLastLine : Prop :=
  123 ∉ c.head ∧ 10 ∉ c.body ∧ 10 ∉ c.behind

variable {c}

/-- A contract takes declarations on the line behind its first brace. -/
theorem insertionPoint?_eq (hr : rangeOf? ms = some c.range) {v : Bytes}
    (hc : c.bytes = u ++ 123 :: v) (hu : 123 ∉ u) :
    insertionPoint? c.text ms = some (nextLine c.text (c.before ++ (u ++ [123])).length) := by
  have hslice : slice c.text c.range.start c.range.stop = u ++ 123 :: v := by
    rw [← hc]
    exact slice_middle c.before c.bytes c.behind
  have hpos : c.range.start + (u.length : Int) + 1 = ((c.before ++ (u ++ [123])).length : Int) := by
    simp [range]
    omega
  simp only [insertionPoint?, hr, hslice, findIdx?_append_cons hu, hpos]

/-- A contract whose head has no brace takes declarations inside if its line ends
in the body or not at all. -/
theorem inside_nextLine_of_not_mem :
    c.Inside (nextLine c.text (c.before ++ (c.head ++ [123])).length) ↔ 10 ∈ c.body ∨ 10 ∉ c.behind := by
  have htext : c.text = (c.before ++ (c.head ++ [123])) ++ ([] ++ (c.body ++ 125 :: c.behind)) := by
    simp [text, bytes]
  have hlen : (c.before ++ (c.head ++ [123])).length = c.opening + 1 := by
    simp only [opening, length_append, length_singleton]
    omega
  rw [htext]
  have hiff := nextLine_within_iff (u := c.before ++ (c.head ++ [123])) (v := []) (m := c.body)
    (w := 125 :: c.behind) (by simp)
  simp only [hlen, length_nil, mem_cons, true_and] at hiff ⊢
  rw [← show (10 : UInt8) = 125 ∨ 10 ∈ c.behind ↔ 10 ∈ c.behind from or_iff_right (by decide), ← hiff]
  simp only [Inside, closing]
  omega

/-- If the head has a brace, the line of that brace has to go on to the body and
to end there. -/
theorem inside_nextLine_of_mem {w : Bytes} (hhead : c.head = u ++ 123 :: w) :
    c.Inside (nextLine c.text (c.before ++ (u ++ [123])).length) ↔ 10 ∉ w ∧ 10 ∈ c.body := by
  have htext : c.text = (c.before ++ (u ++ [123])) ++ (w ++ 123 :: (c.body ++ 125 :: c.behind)) := by
    simp [text, bytes, hhead]
  have hlen : (c.before ++ (u ++ [123])).length + w.length = c.opening := by
    simp only [opening, hhead, length_append, length_cons, length_nil]
    omega
  rw [htext]
  generalize c.before ++ (u ++ [123]) = a at hlen ⊢
  by_cases hw : 10 ∈ w
  · have hb := nextLine_of_mem (u := a) (w := 123 :: (c.body ++ 125 :: c.behind)) hw
    simp only [Inside, hw, not_true, false_and, iff_false]
    omega
  · have hw' : (10 : UInt8) ∉ w ++ [123] := by simp [hw]
    have hiff := nextLine_within_iff (u := a) (m := c.body) (w := 125 :: c.behind) hw'
    simp only [length_append, length_singleton, append_assoc, singleton_append,
      append_eq_nil_iff, cons_ne_nil, and_false, false_and, or_false] at hiff
    simp only [hw, not_false_iff, true_and, ← hiff, Inside, closing]
    omega

/-- The position of a contract lies inside if the line of its first brace ends in
its body, or if that brace opens the body on the last line of the text. -/
theorem exists_insertionPoint? (hr : rangeOf? ms = some c.range) :
    ∃ p, insertionPoint? c.text ms = some p ∧ (c.Inside p ↔ c.EndsLineInBody ∨ c.OpensOnLastLine) := by
  by_cases hh : 123 ∈ c.head
  · obtain ⟨u, w, hhead, hu⟩ := eq_append_cons_of_mem hh
    have hbytes : c.bytes = u ++ 123 :: (w ++ 123 :: (c.body ++ [125])) := by simp [bytes, hhead]
    have hdrop : c.head.dropWhile (· != 123) = 123 :: w := by
      have hne : ∀ b ∈ u, (b != 123) = true := fun b hb => bne_iff_ne.2 fun e => hu (e ▸ hb)
      rw [hhead, dropWhile_append_of_pos hne]
      rfl
    refine ⟨_, insertionPoint?_eq hr hbytes hu, (inside_nextLine_of_mem hhead).trans ?_⟩
    simp [EndsLineInBody, OpensOnLastLine, hdrop, hh]
  · have hdrop : c.head.dropWhile (· != 123) = [] :=
      dropWhile_eq_nil_iff.2 fun b hb => bne_iff_ne.2 fun e => hh (e ▸ hb)
    refine ⟨_, insertionPoint?_eq hr rfl hh, inside_nextLine_of_not_mem.trans ?_⟩
    simp only [EndsLineInBody, OpensOnLastLine, hdrop, hh]
    by_cases hbody : 10 ∈ c.body <;> simp [hbody]

end Braced

/-! ## Two walks that agree -/

section Agreement

variable {α β γ : Type} {φ : α → γ} {ψ : β → γ}

/-- If `y` succeeds then so does `x`, and what they list looks the same. -/
def Follows (φ : α → γ) (ψ : β → γ) (x : Except Fault (List α)) (y : Except Fault (List β)) : Prop :=
  ∀ l', y = .ok l' → ∃ l, x = .ok l ∧ l.map φ = l'.map ψ

theorem follows_nil : Follows φ ψ (.ok []) (.ok []) := by
  rintro _ ⟨⟩
  exact ⟨[], rfl, rfl⟩

theorem Follows.append {x x' : Except Fault (List α)} {y y' : Except Fault (List β)}
    (h : Follows φ ψ x y) (h' : Follows φ ψ x' y') :
    Follows φ ψ (do let here ← x; return here ++ (← x')) (do let here ← y; return here ++ (← y')) := by
  intro l' hl'
  obtain ⟨here', hhere', hl'⟩ := bind_ok.1 hl'
  obtain ⟨rest', hrest', hl'⟩ := bind_ok.1 hl'
  cases hl'
  obtain ⟨here, rfl, hhere⟩ := h _ hhere'
  obtain ⟨rest, rfl, hrest⟩ := h' _ hrest'
  exact ⟨here ++ rest, rfl, by rw [map_append, map_append, hhere, hrest]⟩

variable {f : Members → Except Fault (List α)} {g : Members → Except Fault (List β)}

theorem follows_atContractsOfMembers {ms : Members}
    (hms : ∀ m ∈ ms, Follows φ ψ (atContracts f m.2) (atContracts g m.2)) (contract : Bool) :
    Follows φ ψ (atContractsOfMembers f contract ms) (atContractsOfMembers g contract ms) := by
  induction ms with
  | nil => exact follows_nil
  | cons m ms ih =>
    obtain ⟨k, v⟩ := m
    obtain ⟨hm, hrest⟩ := forall_mem_cons.1 hms
    have hrest := ih hrest
    rw [atContractsOfMembers.eq_def f, atContractsOfMembers.eq_def g]
    dsimp only
    split
    · split
      · split
        · exact hm.append hrest
        · exact follows_nil.append hrest
        · exact follows_nil.append hrest
        · rintro _ ⟨⟩
      · exact follows_nil.append hrest
    · exact hm.append hrest

theorem follows_atContracts (hfg : ∀ ms, Follows φ ψ (f ms) (g ms)) (v : Json) :
    Follows φ ψ (atContracts f v) (atContracts g v) := by
  induction v using walkInduction with
  | cons v vs hv hvs => exact hv.append hvs
  | obj ms hms _ =>
    rw [atContracts, atContracts]
    split
    · exact (hfg ms).append (follows_atContractsOfMembers hms true)
    · exact follows_atContractsOfMembers hms false
  | _ => exact follows_nil

end Agreement

/-! ## Sites and homes -/

section Positions

variable {κ α β : Type} [DecidableEq κ] {φ : α → β} {m : Assoc κ α}

/-- The entries with their values seen through `φ`. -/
def seen (φ : α → β) (e : κ × α) : κ × β :=
  (e.1, φ e.2)

theorem map_seen_set (k : κ) (v : α) :
    (Assoc.set k v m).map (seen φ) = Assoc.set k (φ v) (m.map (seen φ)) := by
  induction m with
  | nil => rfl
  | cons e es ih =>
    by_cases h : e.1 = k
    · simp [Assoc.set, seen, h]
    · simp [Assoc.set, seen, h, ← ih]

theorem map_seen_foldl_set (l : Assoc κ α) :
    (l.foldl (fun m e => Assoc.set e.1 e.2 m) m).map (seen φ) =
      (l.map (seen φ)).foldl (fun m e => Assoc.set e.1 e.2 m) (m.map (seen φ)) := by
  induction l generalizing m with
  | nil => rfl
  | cons e es ih =>
    rw [foldl_cons, ih, map_seen_set]
    rfl

end Positions

section Contracts

variable {s : Bytes} {ms : Members} {p : Int} {id : Json} {k : Key}

theorem siteHere_eq (hp : insertionPoint? s ms = some p) (hk : (fieldOf "id" ms).key = .ok k) :
    siteHere s ms = .ok [(k, ⟨fieldOf "id" ms, p⟩)] := by
  simp only [siteHere, structurePoint?_eq, hp, hk]
  rfl

theorem exists_homeHere (hp : insertionPoint? s ms = some p) (hid : lookup "id" ms = some id)
    (hk : id.key = .ok k) : ∃ home : Home, homeHere s ms = .ok [(k, home)] ∧ home.position = p := by
  simp only [homeHere, hp, need, hid, bind, Except.bind, hk]
  exact ⟨_, rfl, rfl⟩

theorem follows_siteHere (s : Bytes) (ms : Members) :
    Follows (seen Site.position) (seen Home.position) (siteHere s ms) (homeHere s ms) := by
  intro l' hl'
  rw [homeHere.eq_def] at hl'
  split at hl'
  · rename_i hp
    cases hl'
    exact ⟨[], by rw [siteHere, structurePoint?_eq, hp], rfl⟩
  · rename_i p hp
    obtain ⟨id, hid, hl'⟩ := bind_ok.1 hl'
    obtain ⟨k, hk, hl'⟩ := bind_ok.1 hl'
    cases hl'
    rw [← need_ok hid] at hk
    exact ⟨_, siteHere_eq hp hk, rfl⟩

/-- A tree with homes has sites, under the same numbers and at the same
positions. -/
theorem exists_sites_of_homes {tree : Json} {known : Assoc Key Home} (h : homes s tree = .ok known) :
    ∃ known', sites s tree = .ok known' ∧
      known'.map (seen Site.position) = known.map (seen Home.position) := by
  obtain ⟨found, hfound, h⟩ := bind_ok.1 h
  cases h
  obtain ⟨found', hfound', hsame⟩ := follows_atContracts (follows_siteHere s) tree _ hfound
  refine ⟨found'.foldl (fun m e => Assoc.set e.1 e.2 m) [], ?_, ?_⟩
  · rw [sites, hfound']
    rfl
  · rw [map_seen_foldl_set, map_seen_foldl_set, hsame]
    rfl

/-- A contract in braces takes declarations behind its opening brace and not
behind its closing one exactly if the line of its first brace ends in the body,
or if that brace opens the body and no line feed follows it at all. Grouping and
promotion find the same position, also for all contracts of a tree. -/
theorem insertion_inside_iff (c : Braced) (hr : rangeOf? ms = some c.range)
    (hid : lookup "id" ms = some id) (hk : id.key = .ok k) :
    (∃ site home, siteHere c.text ms = .ok [(k, site)] ∧ homeHere c.text ms = .ok [(k, home)] ∧
      insertionPoint? c.text ms = some site.position ∧ home.position = site.position ∧
      (c.Inside site.position ↔ c.EndsLineInBody ∨ c.OpensOnLastLine)) ∧
    ∀ tree known, homes c.text tree = .ok known →
      (∃ known', sites c.text tree = .ok known' ∧
        known'.map (seen Site.position) = known.map (seen Home.position)) ∧
      ∀ home ∈ known.values, ∃ node ∈ nodesOf "ContractDefinition" tree,
        insertionPoint? c.text node = some home.position := by
  refine ⟨?_, fun tree known h => ⟨exists_sites_of_homes h, fun home hx => position_of_homes h hx⟩⟩
  obtain ⟨p, hp, hinside⟩ := Braced.exists_insertionPoint? hr
  obtain ⟨home, hhome, hposition⟩ := exists_homeHere hp hid hk
  have hfield : (fieldOf "id" ms).key = .ok k := by rw [fieldOf, hid]; exact hk
  exact ⟨_, home, siteHere_eq hp hfield, hhome, hp, hposition, hinside⟩

def numbered (src : String) : Members :=
  [("nodeType", .str "ContractDefinition"), ("id", .int 1), ("src", .str src)]

/-- A contract behind another line, with a brace in a comment of its head; its
lines end with carriage returns. -/
theorem insertion_inside_over_lines :
    let c : Braced := ⟨encode "//\n".toList, encode "contract C/*\x7b*/".toList,
      encode "\x0d\n uint a;\x0d\n".toList, encode "\n".toList⟩
    rangeOf? (numbered "3:29:0") = some c.range ∧
      (∃ site home, siteHere c.text (numbered "3:29:0") = .ok [(.whole 1, site)] ∧
        homeHere c.text (numbered "3:29:0") = .ok [(.whole 1, home)] ∧
        home.position = site.position ∧ c.Inside site.position) := by
  intro c
  have hr : rangeOf? (numbered "3:29:0") = some c.range := by decide
  have hid : lookup "id" (numbered "3:29:0") = some (.int 1) := rfl
  have hkey : (Json.int 1).key = .ok (.whole 1) := rfl
  obtain ⟨⟨site, home, hsite, hhome, -, hsame, hinside⟩, -⟩ := insertion_inside_iff c hr hid hkey
  have hline : c.EndsLineInBody := by
    constructor <;> decide
  exact ⟨hr, site, home, hsite, hhome, hsame, hinside.2 (.inl hline)⟩

/-- A contract on one line with a line behind it takes declarations behind its
closing brace, and one with a brace in a comment of its head takes them before
its opening brace. -/
theorem insertion_outside_one_line :
    let c : Braced := ⟨[], encode "contract C".toList, [], encode "\n".toList⟩
    let d : Braced := ⟨[], encode "contract C//\x7b\n".toList, [], []⟩
    (rangeOf? (numbered "0:12:0") = some c.range ∧
        insertionPoint? c.text (numbered "0:12:0") = some 13 ∧ c.closing = 11) ∧
      rangeOf? (numbered "0:16:0") = some d.range ∧
        insertionPoint? d.text (numbered "0:16:0") = some 14 ∧ d.opening = 14 := by
  decide

end Contracts

end Obscura.Storage
