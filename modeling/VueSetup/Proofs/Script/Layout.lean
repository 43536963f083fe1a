import VueSetup.Proofs.Script.Gap
import VueSetup.Script.Node

/-!
# VueSetup.Proofs.Script.Layout

How the nodes of a tree lie in the text: every node covers a stretch of whole characters, what is
below a node lies inside of it, and nodes side by side do not overlap.

`Laid src lo hi ns` says that of the trees `ns`, which come one after the other between `lo` and
`hi`. Three things keep it from being plain nesting:

* The parts of some nodes are kept in another order than that of the text, such as the name and the
  type parameters of a function, which are listed with what it gives back.
* A name that is written once may stand in the tree twice, such as the key and the value of a
  shorthand member. A part without parts of its own may therefore lie over the others.
* Some nodes reach beyond the stretch that they are said to cover: a declared name with its type, a
  class with its decorators. What is below them lies in the room of the node only.
-/

namespace VueSetup.Script

open Text

/-- A quote starts at the offset. -/
def OpensAt (src : List Char) (n : Nat) : Prop :=
  ∃ before quote behind, src = before ++ quote :: behind ∧ byteSize before = n ∧
    isQuote quote = true

/-- A quote ends at the offset. -/
def ClosesAt (src : List Char) (n : Nat) : Prop :=
  ∃ before quote behind, src = before ++ quote :: behind ∧ byteSize before + 1 = n ∧
    isQuote quote = true

/-- From `pos` on up to the token at `hi` there is nothing but the trees, in order, with blanks and
comments between them. A tree may start behind the first token of it, where decorators stand. -/
def Chained (src : List Char) (hi : Nat) : Nat → List Node → Prop
  | pos, [] => tokenBehind src pos = hi
  | pos, n :: ns => tokenBehind src pos ≤ n.span.start ∧ tokenBehind src pos < n.span.stop ∧
    Chained src hi n.span.stop ns

namespace Node

/-! ### Parts

What is right below a node, and how the whole tree is made of that. `nodes` lists a tree from its
root on; the induction on trees goes by their size, because parts are lists of nodes. -/

/-- The nodes right below a node. -/
def parts : Node → List Node
  | .reference .. | .plainName .. | .string .. | .boolean .. | .literal .. => []
  | .binding _ _ ps | .template _ ps | .object _ ps | .array _ ps | .importDeclaration _ _ ps
  | .exportNamed _ _ ps | .returnStatement _ ps | .form _ _ ps => ps
  | .spread _ a | .paren _ a | .member _ a _ | .unary _ _ a | .exportDefault _ a => [a]
  | .property _ _ a b | .asType _ a b | .satisfies _ a b => [a, b]
  | .typeReference _ a ps => a :: ps
  | .call _ a ts ps => a :: ts ++ ps
  | .block _ ds ss => ds ++ ss
  | .function _ ps rs ts bs => ps ++ rs ++ ts ++ bs
  | .arrow _ ps rs ts b => ps ++ rs ++ ts ++ [b]

/-- The trees of two lists one after the other. -/
theorem nodesOf_append (ns ms : List Node) : nodesOf (ns ++ ms) = nodesOf ns ++ nodesOf ms := by
  induction ns with
  | nil => simp [nodesOf]
  | cons n ns ih => simp [nodesOf, ih]

/-- The trees of a list of one. -/
theorem nodesOf_singleton (n : Node) : nodesOf [n] = n.nodes := by
  simp [nodesOf]

/-- A node of some trees is a node of one of them. -/
theorem mem_nodesOf {n : Node} {ns : List Node} : n ∈ nodesOf ns ↔ ∃ m ∈ ns, n ∈ m.nodes := by
  induction ns with
  | nil => simp [nodesOf]
  | cons m ns ih => simp [nodesOf, ih]

/-- A tree is its root and the trees of the parts. -/
theorem nodes_eq (n : Node) : n.nodes = n :: nodesOf n.parts := by
  cases n <;> simp [nodes, parts, nodesOf, nodesOf_append]

/-- A part of a node is smaller than the node. -/
theorem sizeOf_lt_of_mem_parts {n p : Node} (h : p ∈ n.parts) : sizeOf p < sizeOf n := by
  have hlist : ∀ {ns : List Node}, p ∈ ns → sizeOf p < sizeOf ns := List.sizeOf_lt_of_mem
  cases n <;> simp only [parts, List.mem_append, List.mem_cons, List.not_mem_nil, or_false] at h <;>
    simp <;> grind

/-- What is right below a node of a tree is in the tree. -/
theorem mem_nodes_of_mem_parts {n p : Node} (hp : p ∈ n.parts) (m : Node) (hn : n ∈ m.nodes) :
    p ∈ m.nodes := by
  rw [nodes_eq, List.mem_cons] at hn ⊢
  rcases hn with rfl | hn
  · exact .inr (mem_nodesOf.mpr ⟨p, hp, by rw [nodes_eq]; exact List.mem_cons_self⟩)
  · obtain ⟨q, hq, hn⟩ := mem_nodesOf.mp hn
    have hsmaller := sizeOf_lt_of_mem_parts hq
    exact .inr (mem_nodesOf.mpr ⟨q, hq, mem_nodes_of_mem_parts hp q hn⟩)
termination_by sizeOf m

/-- Going down one level stays inside of the trees. -/
theorem mem_nodesOf_of_mem_parts {n p : Node} {ns : List Node} (hn : n ∈ nodesOf ns)
    (hp : p ∈ n.parts) : p ∈ nodesOf ns := by
  obtain ⟨m, hm, hn⟩ := mem_nodesOf.mp hn
  exact mem_nodesOf.mpr ⟨m, hm, mem_nodes_of_mem_parts hp m hn⟩

/-- The stretch in which the parts of a node lie, for a node that lies between `lo` and `hi`: inside
of the braces of a block, behind the first character of a default export, and otherwise that of the
node itself unless the node reaches beyond it. -/
def room (lo hi : Nat) : Node → Span
  | .block s _ _ => ⟨s.start + 1, s.stop - 1⟩
  | .exportDefault s _ => ⟨s.start + 1, s.stop⟩
  | .binding .. | .exportNamed .. | .form .pattern .. | .form .classDeclaration .. => ⟨lo, hi⟩
  | n => n.span

/-- The parts of the node are `ps` in the order of the text, and `ls` besides, which lie over them.
-/
def Comprises (n : Node) (ps ls : List Node) : Prop :=
  match n with
  | .property _ _ key value => (ps = [key, value] ∧ ls = []) ∨ (ps = [value] ∧ ls = [key])
  | .function .. | .arrow .. | .binding .. | .exportNamed .. | .form .pattern ..
  | .form .classDeclaration .. | .form .functionDeclaration .. => n.parts.Perm (ps ++ ls)
  | _ => n.parts = ps ∧ ls = []

/-- A quote stands right behind the start of the stretch, and one right before its end. -/
structure Quoted (src : List Char) (s : Span) : Prop where
  opens : OpensAt src s.start
  closes : ClosesAt src s.stop

/-- What the nodes of a kind have besides: braces around a block and nothing but statements between
them, two characters at least in an import, a name at least in a member, quotes around a string or a
template, and a name without a `<` where a name is used or declared. -/
def Proper (src : List Char) : Node → Prop
  | .reference _ name | .binding _ name _ => '<' ∉ name.toList
  | .block s ds ss => IsBoundary src (s.start + 1) ∧ IsBoundary src (s.stop - 1) ∧
    Chained src (s.stop - 1) (s.start + 1) (ds ++ ss)
  | .importDeclaration s _ _ => s.start + 2 ≤ s.stop
  | .member s _ _ => s.start < s.stop
  | .string s _ | .template s _ => Quoted src s
  | _ => True

/-- The node covers whole characters between `lo` and `hi`. -/
structure Sits (src : List Char) (lo hi : Nat) (n : Node) : Prop where
  lo_le : lo ≤ n.span.start
  start_le_stop : n.span.start ≤ n.span.stop
  le_hi : n.span.stop ≤ hi
  start_isBoundary : IsBoundary src n.span.start
  stop_isBoundary : IsBoundary src n.span.stop
  proper : n.Proper src

/-- There may be more room on both sides. -/
theorem Sits.weaken {src : List Char} {n : Node} {lo hi lo' hi' : Nat} (h : n.Sits src lo hi)
    (hlo : lo' ≤ lo) (hhi : hi ≤ hi') : n.Sits src lo' hi' :=
  { h with lo_le := Nat.le_trans hlo h.lo_le, le_hi := Nat.le_trans h.le_hi hhi }

/-- No part is lost in the order of the text, and none is added. -/
theorem Comprises.mem_parts {n : Node} {ps ls : List Node} (h : n.Comprises ps ls) {p : Node} :
    p ∈ n.parts ↔ p ∈ ps ∨ p ∈ ls := by
  rw [← List.mem_append]
  unfold Comprises at h
  split at h
  · rcases h with ⟨rfl, rfl⟩ | ⟨rfl, rfl⟩
    · simp [parts]
    · simp [parts, or_comm]
  all_goals first
    | exact h.mem_iff
    | (obtain ⟨rfl, rfl⟩ := h; simp)

/-- The room of a node lies where the node does. -/
theorem Sits.room_le {src : List Char} {n : Node} {lo hi : Nat} (h : n.Sits src lo hi) :
    lo ≤ (n.room lo hi).start ∧ (n.room lo hi).stop ≤ hi := by
  have hlo := h.lo_le
  have hhi := h.le_hi
  unfold room
  split
  all_goals first
    | exact ⟨Nat.le_refl _, Nat.le_refl _⟩
    | (simp only [span] at hlo hhi; exact ⟨by dsimp only; omega, by dsimp only; omega⟩)
    | exact ⟨hlo, hhi⟩

/-- The room grows with the place of the node. -/
theorem room_mono (n : Node) {lo hi lo' hi' : Nat} (hlo : lo' ≤ lo) (hhi : hi ≤ hi') :
    (n.room lo' hi').start ≤ (n.room lo hi).start ∧
    (n.room lo hi).stop ≤ (n.room lo' hi').stop := by
  unfold room
  split
  all_goals first
    | exact ⟨Nat.le_refl _, Nat.le_refl _⟩
    | exact ⟨hlo, hhi⟩

end Node

/-! ### Trees side by side

The rules of the grammar make lists of trees, so the statement is about lists. A single tree is a
list of one, and its parts are such a list in the room that the tree leaves. -/

/-- The trees come one after the other between `lo` and `hi`, and so do the parts of each in the
room of that one. -/
inductive Laid (src : List Char) : Nat → Nat → List Node → Prop where
  | nil {lo hi : Nat} : lo ≤ hi → Laid src lo hi []
  | cons {lo mid hi : Nat} {n : Node} {ns ps ls : List Node} : n.Sits src lo mid →
    n.Comprises ps ls → Laid src (n.room lo mid).start (n.room lo mid).stop ps →
    (∀ l ∈ ls, l.parts = []) →
    (∀ l ∈ ls, Laid src (n.room lo mid).start (n.room lo mid).stop [l]) →
    Laid src mid hi ns → Laid src lo hi (n :: ns)

namespace Laid

variable {src : List Char} {lo mid hi : Nat} {n : Node} {ns ms : List Node}

/-- Trees leave no less than nothing. -/
theorem le (h : Laid src lo hi ns) : lo ≤ hi := by
  induction h with
  | nil h => exact h
  | cons hs _ _ _ _ _ _ _ ih =>
    exact Nat.le_trans hs.lo_le (Nat.le_trans hs.start_le_stop (Nat.le_trans hs.le_hi ih))

/-- There may be more room on both sides. -/
theorem weaken (h : Laid src lo hi ns) {lo' hi' : Nat} (hlo : lo' ≤ lo) (hhi : hi ≤ hi') :
    Laid src lo' hi' ns := by
  induction h generalizing lo' hi' with
  | nil h => exact .nil (by omega)
  | @cons lo mid hi n ns ps ls hs hc _ hleaf _ _ ihps ihls ih =>
    have hroom := n.room_mono hlo (Nat.le_refl mid)
    exact .cons (hs.weaken hlo (Nat.le_refl mid)) hc (ihps hroom.1 hroom.2) hleaf
      (fun l hl => ihls l hl hroom.1 hroom.2) (ih (Nat.le_refl mid) hhi)

/-- The first tree lies up to some offset, from which the others lie. -/
theorem cons_iff :
    Laid src lo hi (n :: ns) ↔ ∃ mid, Laid src lo mid [n] ∧ Laid src mid hi ns := by
  constructor
  · intro h
    cases h with
    | @cons _ mid _ _ _ ps ls hs hc hps hleaf hls hns =>
      exact ⟨mid, .cons hs hc hps hleaf hls (.nil (Nat.le_refl mid)), hns⟩
  · rintro ⟨mid, h, hns⟩
    cases h with
    | @cons _ mid' _ _ _ ps ls hs hc hps hleaf hls hnil =>
      exact .cons hs hc hps hleaf hls (hns.weaken hnil.le (Nat.le_refl hi))

/-- Trees behind trees. -/
theorem append (h : Laid src lo mid ns) (h' : Laid src mid hi ms) : Laid src lo hi (ns ++ ms) := by
  induction ns generalizing lo with
  | nil => exact h'.weaken h.le (Nat.le_refl hi)
  | cons n ns ih =>
    obtain ⟨at_, hn, hns⟩ := cons_iff.mp h
    exact cons_iff.mpr ⟨at_, hn, ih hns⟩

/-- A list of trees is laid in any two parts of it. -/
theorem append_iff :
    Laid src lo hi (ns ++ ms) ↔ ∃ mid, Laid src lo mid ns ∧ Laid src mid hi ms := by
  refine ⟨fun h => ?_, fun ⟨mid, hns, hms⟩ => hns.append hms⟩
  induction ns generalizing lo with
  | nil => exact ⟨lo, .nil (Nat.le_refl lo), h⟩
  | cons n ns ih =>
    obtain ⟨at_, hn, h⟩ := cons_iff.mp h
    obtain ⟨mid, hns, hms⟩ := ih h
    exact ⟨mid, cons_iff.mpr ⟨at_, hn, hns⟩, hms⟩

/-- One tree lies between two offsets when its root does and its parts lie in the room. -/
theorem singleton_iff : Laid src lo hi [n] ↔ ∃ ps ls, n.Sits src lo hi ∧ n.Comprises ps ls ∧
    Laid src (n.room lo hi).start (n.room lo hi).stop ps ∧ (∀ l ∈ ls, l.parts = []) ∧
    ∀ l ∈ ls, Laid src (n.room lo hi).start (n.room lo hi).stop [l] := by
  constructor
  · intro h
    cases h with
    | @cons _ mid _ _ _ ps ls hs hc hps hleaf hls hnil =>
      have hroom := n.room_mono (Nat.le_refl lo) hnil.le
      exact ⟨ps, ls, hs.weaken (Nat.le_refl lo) hnil.le, hc, hps.weaken hroom.1 hroom.2, hleaf,
        fun l hl => (hls l hl).weaken hroom.1 hroom.2⟩
  · rintro ⟨ps, ls, hs, hc, hps, hleaf, hls⟩
    exact .cons hs hc hps hleaf hls (.nil (Nat.le_refl hi))

/-! ### What lies below

Nothing more is said of a tree than of its root and the next level, so that statements about deeper
nodes go down level by level. -/

/-- The root of a tree lies where the tree does. -/
theorem sits (h : Laid src lo hi [n]) : n.Sits src lo hi := by
  obtain ⟨_, _, hs, _⟩ := singleton_iff.mp h
  exact hs

/-- Each of several trees lies in their room. -/
theorem of_mem (h : Laid src lo hi ns) (hn : n ∈ ns) : Laid src lo hi [n] := by
  induction ns generalizing lo with
  | nil => cases hn
  | cons m ns ih =>
    obtain ⟨mid, hm, hns⟩ := cons_iff.mp h
    rcases List.mem_cons.mp hn with rfl | hn
    · exact hm.weaken (Nat.le_refl lo) hns.le
    · exact (ih hns hn).weaken hm.le (Nat.le_refl hi)

/-- A part of a node lies in the room of the node. -/
theorem part (h : Laid src lo hi [n]) {p : Node} (hp : p ∈ n.parts) :
    Laid src (n.room lo hi).start (n.room lo hi).stop [p] := by
  obtain ⟨ps, ls, hs, hc, hps, -, hls⟩ := singleton_iff.mp h
  rcases hc.mem_parts.mp hp with hp | hp
  · exact hps.of_mem hp
  · exact hls p hp

/-- A part of a node lies where the node does. -/
theorem part_within (h : Laid src lo hi [n]) {p : Node} (hp : p ∈ n.parts) : Laid src lo hi [p] :=
  (h.part hp).weaken h.sits.room_le.1 h.sits.room_le.2

/-- Two of the trees are the same one, or the one ends before the other starts. -/
theorem apart (h : Laid src lo hi ns) {a b : Node} (ha : a ∈ ns) (hb : b ∈ ns) :
    a = b ∨ a.span.stop ≤ b.span.start ∨ b.span.stop ≤ a.span.start := by
  induction ns generalizing lo with
  | nil => cases ha
  | cons n ns ih =>
    obtain ⟨mid, hn, hns⟩ := cons_iff.mp h
    have hbehind : ∀ m ∈ ns, n.span.stop ≤ m.span.start := fun m hm =>
      Nat.le_trans hn.sits.le_hi (hns.of_mem hm).sits.lo_le
    rcases List.mem_cons.mp ha with ha | ha <;> rcases List.mem_cons.mp hb with hb | hb
    · exact .inl (ha.trans hb.symm)
    · rw [ha]
      exact .inr (.inl (hbehind b hb))
    · rw [hb]
      exact .inr (.inr (hbehind a ha))
    · exact ih hns ha hb

/-- Whatever lies below laid trees lies between the same offsets. -/
theorem of_mem_nodesOf (h : Laid src lo hi ns) {m : Node} (hm : m ∈ Node.nodesOf ns) :
    Laid src lo hi [m] := by
  induction h with
  | nil => simp [Node.nodesOf] at hm
  | @cons lo mid hi n ns ps ls hs hc hps hleaf hls hns ihps ihls ih =>
    have hroom := hs.room_le
    rw [Node.nodesOf, List.mem_append, Node.nodes_eq, List.mem_cons] at hm
    rcases hm with (rfl | hm) | hm
    · exact cons hs hc hps hleaf hls (.nil hns.le)
    · obtain ⟨p, hp, hm⟩ := Node.mem_nodesOf.mp hm
      rcases hc.mem_parts.mp hp with hp | hp
      · exact (ihps (Node.mem_nodesOf.mpr ⟨p, hp, hm⟩)).weaken hroom.1
          (Nat.le_trans hroom.2 hns.le)
      · exact (ihls p hp (by rwa [Node.nodesOf_singleton])).weaken hroom.1
          (Nat.le_trans hroom.2 hns.le)
    · exact (ih hm).weaken
        (Nat.le_trans hs.lo_le (Nat.le_trans hs.start_le_stop hs.le_hi)) (Nat.le_refl hi)

/-- Of two nodes with parts, one lies below the other, or the one ends before the other starts.
Nodes without parts are left out since they may lie over others. -/
theorem nested_or_apart (h : Laid src lo hi ns) {a b : Node} (ha : a ∈ Node.nodesOf ns)
    (hb : b ∈ Node.nodesOf ns) (hanil : a.parts ≠ []) (hbnil : b.parts ≠ []) :
    a ∈ b.nodes ∨ b ∈ a.nodes ∨ a.span.stop ≤ b.span.start ∨ b.span.stop ≤ a.span.start := by
  induction h with
  | nil => simp [Node.nodesOf] at ha
  | @cons lo mid hi n ns ps ls hs hc hps hleaf hls hns ihps ihls ih =>
    have hn : Laid src lo mid [n] := cons hs hc hps hleaf hls (.nil (Nat.le_refl mid))
    -- what is below the first tree ends before what is below the others starts
    have hacross : ∀ {x y : Node}, x ∈ n.nodes → y ∈ Node.nodesOf ns →
        x.span.stop ≤ y.span.start := by
      intro x y hx hy
      have hx' := hn.of_mem_nodesOf (by rwa [Node.nodesOf_singleton])
      exact Nat.le_trans hx'.sits.le_hi (hns.of_mem_nodesOf hy).sits.lo_le
    -- a part that lies over others has no parts
    have hbelow : ∀ {x : Node}, x ∈ Node.nodesOf n.parts → x.parts ≠ [] → x ∈ Node.nodesOf ps := by
      intro x hx hxnil
      obtain ⟨p, hp, hx⟩ := Node.mem_nodesOf.mp hx
      rcases hc.mem_parts.mp hp with hp | hp
      · exact Node.mem_nodesOf.mpr ⟨p, hp, hx⟩
      · rw [Node.nodes_eq, hleaf p hp] at hx
        obtain rfl : x = p := by simpa [Node.nodesOf] using hx
        exact absurd (hleaf x hp) hxnil
    rw [Node.nodesOf, List.mem_append] at ha hb
    rcases ha with ha | ha <;> rcases hb with hb | hb
    · rw [Node.nodes_eq, List.mem_cons] at ha hb
      rcases ha with rfl | ha
      · rw [← List.mem_cons, ← Node.nodes_eq] at hb
        exact .inr (.inl hb)
      rcases hb with rfl | hb
      · exact .inl (by rw [Node.nodes_eq]; exact List.mem_cons_of_mem _ ha)
      · exact ihps (hbelow ha hanil) (hbelow hb hbnil)
    · exact .inr (.inr (.inl (hacross ha hb)))
    · exact .inr (.inr (.inr (hacross hb ha)))
    · exact ih ha hb

/-- A tree may start earlier, where there is room. -/
theorem startingAt (h : Laid src lo hi [n]) {start : Nat} (hlo : lo ≤ start)
    (hstart : start ≤ n.span.start) (hboundary : IsBoundary src start) :
    Laid src lo hi [n.startingAt start] := by
  cases n
  case form kind span parts =>
    obtain ⟨ps, ls, hs, hc, hps, hleaf, hls⟩ := singleton_iff.mp h
    have hroom : (Node.room lo hi (.form kind ⟨start, span.stop⟩ parts)).start ≤
          (Node.room lo hi (.form kind span parts)).start ∧
        (Node.room lo hi (.form kind span parts)).stop ≤
          (Node.room lo hi (.form kind ⟨start, span.stop⟩ parts)).stop := by
      cases kind
      all_goals first
        | exact ⟨Nat.le_refl _, Nat.le_refl _⟩
        | exact ⟨hstart, Nat.le_refl _⟩
    refine singleton_iff.mpr ⟨ps, ls, { hs with
      lo_le := hlo
      start_le_stop := Nat.le_trans hstart hs.start_le_stop
      start_isBoundary := hboundary
      proper := trivial }, ?_, hps.weaken hroom.1 hroom.2, hleaf,
      fun l hl => (hls l hl).weaken hroom.1 hroom.2⟩
    cases kind <;> exact hc
  all_goals exact h

/-! ### Targets of assignments

An object or an array that stands before an assignment has been read as an expression and is turned
into a target then. An assignment inside of it becomes a target with a value to fall back on, and
all other nodes are kept; nothing changes its place. -/

/-- A tree whose root keeps its place and its room, and whose parts, listed in the order of the
text, are laid where those of another tree are, is laid where that one is. -/
theorem replace {m : Node} (h : Laid src lo hi [n]) (hspan : m.span = n.span)
    (hn : ∀ ps ls, n.Comprises ps ls → n.parts = ps) (hm : m.Comprises m.parts [])
    (hproper : m.Proper src) (hroom : m.room lo hi = n.room lo hi)
    (hparts : ∀ lo hi, Laid src lo hi n.parts → Laid src lo hi m.parts) : Laid src lo hi [m] := by
  obtain ⟨ps, ls, hs, hc, hps, -, -⟩ := singleton_iff.mp h
  refine singleton_iff.mpr ⟨m.parts, [], ⟨?_, ?_, ?_, ?_, ?_, hproper⟩, hm, ?_, by simp, by simp⟩
  · exact hspan ▸ hs.lo_le
  · exact hspan ▸ hs.start_le_stop
  · exact hspan ▸ hs.le_hi
  · exact hspan ▸ hs.start_isBoundary
  · exact hspan ▸ hs.stop_isBoundary
  · rw [hroom]
    exact hparts _ _ (hn ps ls hc ▸ hps)

end Laid

/-- The one tree is laid wherever the other is. -/
def Node.Replaces (src : List Char) (m n : Node) : Prop :=
  ∀ lo hi, Laid src lo hi [n] → Laid src lo hi [m]

/-- The same of several trees. -/
def Node.ReplaceAll (src : List Char) (ms ns : List Node) : Prop :=
  ∀ lo hi, Laid src lo hi ns → Laid src lo hi ms

namespace Node

variable {src : List Char}

/-- A tree is laid where it is. -/
theorem Replaces.refl (n : Node) : n.Replaces src n := fun _ _ h => h

/-- Trees are replaced one by one. -/
theorem Replaces.cons {m n : Node} {ms ns : List Node} (h : m.Replaces src n)
    (h' : ReplaceAll src ms ns) : ReplaceAll src (m :: ms) (n :: ns) := by
  intro lo hi hlaid
  obtain ⟨mid, hn, hns⟩ := Laid.cons_iff.mp hlaid
  exact Laid.cons_iff.mpr ⟨mid, h _ _ hn, h' _ _ hns⟩

/-- A target that is not taken apart keeps its node, also inside of parentheses and types. -/
theorem replaces_toSimpleTarget? {n m : Node} (h : n.toSimpleTarget? = some m) :
    m.Replaces src n := by
  fun_induction toSimpleTarget? n generalizing m with
  | case1 | case2 | case3 =>
    cases h
    exact .refl _
  | case4 span inner ih =>
    obtain ⟨t, ht, rfl⟩ := Option.map_eq_some_iff.mp h
    exact fun lo hi hlaid => hlaid.replace rfl (fun _ _ hc => hc.1) ⟨rfl, rfl⟩ trivial rfl (ih ht)
  | case5 span operand type ih =>
    obtain ⟨t, ht, rfl⟩ := Option.map_eq_some_iff.mp h
    exact fun lo hi hlaid => hlaid.replace rfl (fun _ _ hc => hc.1) ⟨rfl, rfl⟩ trivial rfl
      (Replaces.cons (ih ht) fun _ _ h => h)
  | case6 span operand type ih =>
    obtain ⟨t, ht, rfl⟩ := Option.map_eq_some_iff.mp h
    exact fun lo hi hlaid => hlaid.replace rfl (fun _ _ hc => hc.1) ⟨rfl, rfl⟩ trivial rfl
      (Replaces.cons (ih ht) fun _ _ h => h)
  | case7 span operand ih =>
    obtain ⟨t, ht, rfl⟩ := Option.map_eq_some_iff.mp h
    exact fun lo hi hlaid => hlaid.replace rfl (fun _ _ hc => hc.1) ⟨rfl, rfl⟩ trivial rfl (ih ht)
  | case8 span type operand ih =>
    obtain ⟨t, ht, rfl⟩ := Option.map_eq_some_iff.mp h
    exact fun lo hi hlaid => hlaid.replace rfl (fun _ _ hc => hc.1) ⟨rfl, rfl⟩ trivial rfl
      (Replaces.cons (.refl type) (ih ht))
  | case9 => cases h

/-- The key stays, also where it lies over the value. -/
theorem replaces_property {span : Span} {computed : Bool} {key value target : Node}
    (h : target.Replaces src value) :
    Replaces src (.property span computed key target) (.property span computed key value) := by
  intro lo hi hlaid
  obtain ⟨ps, ls, hs, hc, hps, hleaf, hls⟩ := Laid.singleton_iff.mp hlaid
  have hs' : Sits src lo hi (.property span computed key target) := { hs with proper := trivial }
  rcases hc with ⟨rfl, rfl⟩ | ⟨rfl, rfl⟩
  · exact Laid.singleton_iff.mpr ⟨_, _, hs', .inl ⟨rfl, rfl⟩,
      Replaces.cons (.refl key) h _ _ hps, hleaf, hls⟩
  · exact Laid.singleton_iff.mpr ⟨_, _, hs', .inr ⟨rfl, rfl⟩, h _ _ hps, hleaf, hls⟩

/-- The elements of an array are targets. -/
theorem replaces_array {span : Span} {elements : List Node} {m : Node}
    (ih : ∀ ms, toTargets? elements = some ms → ReplaceAll src ms elements)
    (h : (toTargets? elements).map (Node.array span) = some m) :
    m.Replaces src (.array span elements) := by
  obtain ⟨ms, hms, rfl⟩ := Option.map_eq_some_iff.mp h
  exact fun lo hi hlaid =>
    hlaid.replace rfl (fun _ _ hc => hc.1) ⟨rfl, rfl⟩ trivial rfl (ih ms hms)

/-- The members of an object hold targets. -/
theorem replaces_object {span : Span} {members : List Node} {m : Node}
    (ih : ∀ ms, toTargetMembers? members = some ms → ReplaceAll src ms members)
    (h : (toTargetMembers? members).map (Node.object span) = some m) :
    m.Replaces src (.object span members) := by
  obtain ⟨ms, hms, rfl⟩ := Option.map_eq_some_iff.mp h
  exact fun lo hi hlaid =>
    hlaid.replace rfl (fun _ _ hc => hc.1) ⟨rfl, rfl⟩ trivial rfl (ih ms hms)

/-- The rest of an object or an array is a target. -/
theorem replaceAll_spread {span : Span} {operand : Node} {ms : List Node}
    (ih : ∀ m, operand.toTarget? = some m → m.Replaces src operand)
    (h : operand.toTarget?.map (fun t => [.spread span t]) = some ms) :
    ReplaceAll src ms [.spread span operand] := by
  obtain ⟨t, ht, rfl⟩ := Option.map_eq_some_iff.mp h
  exact fun lo hi hlaid => hlaid.replace rfl (fun _ _ hc => hc.1) ⟨rfl, rfl⟩ trivial rfl (ih t ht)

/-- Of a target with a value to fall back on only the form is another. -/
theorem replaces_fallback (span : Span) (parts : List Node) :
    Replaces src (.form .fallback span parts) (.form .assignment span parts) ∧
      Replaces src (.form .fallback span parts) (.form .coverDefault span parts) := by
  constructor
  all_goals
    exact fun lo hi hlaid => hlaid.replace rfl (fun _ _ hc => hc.1) ⟨rfl, rfl⟩ trivial rfl
      fun _ _ h => h

/-- Reading an expression as a target changes no node's place. The induction is that of the four
functions: of a target, of the members of an object, of an element that may have a value to fall
back on, and of the elements of an array. -/
theorem replaces_targets (src : List Char) :
    (∀ n m : Node, n.toTarget? = some m → m.Replaces src n) ∧
    (∀ ns ms : List Node, toTargetMembers? ns = some ms → ReplaceAll src ms ns) ∧
    (∀ n m : Node, n.toTargetOrFallback? = some m → m.Replaces src n) ∧
    (∀ ns ms : List Node, toTargets? ns = some ms → ReplaceAll src ms ns) := by
  apply toTarget?.mutual_induct
    (fun n => ∀ m, n.toTarget? = some m → m.Replaces src n)
    (fun ns => ∀ ms, toTargetMembers? ns = some ms → ReplaceAll src ms ns)
    (fun n => ∀ m, n.toTargetOrFallback? = some m → m.Replaces src n)
    (fun ns => ∀ ms, toTargets? ns = some ms → ReplaceAll src ms ns)
  -- names, members of values, indexed values and holes stay what they are
  case case1 | case3 | case7 | case11 | case13 =>
    rintro _ _ _ ⟨⟩
    exact .refl _
  case case2 | case12 =>
    rintro _ _ _ _ ⟨⟩
    exact .refl _
  case case4 | case9 => exact fun span elements ih m h => replaces_array ih h
  case case5 | case10 => exact fun span members ih m h => replaces_object ih h
  -- what is left is not taken apart
  case case6 =>
    intro n _ _ _ _ _ m h
    rw [toTarget?] at h
    · exact replaces_toSimpleTarget? h
    all_goals assumption
  case case14 =>
    intro n _ _ _ _ _ _ _ m h
    rw [toTargetOrFallback?] at h
    · exact replaces_toSimpleTarget? h
    all_goals assumption
  -- an assignment gives its value to fall back on
  case case8 =>
    rintro span target value _ ⟨⟩
    exact (replaces_fallback span (target :: value)).1
  -- lists that are empty, or end in a spread
  case case15 | case20 =>
    rintro _ ⟨⟩ _ _ hlaid
    exact hlaid
  case case16 | case21 => exact fun span operand ih ms h => replaceAll_spread ih h
  -- other members of an object: a property, a name with a value, and what cannot be a member
  case case17 =>
    intro span computed key value ns ih ihs ms h
    obtain ⟨t, ht, h⟩ := Option.bind_eq_some_iff.mp h
    obtain ⟨ts, hts, h⟩ := Option.bind_eq_some_iff.mp h
    cases h
    exact Replaces.cons (replaces_property (ih t ht)) (ihs ts hts)
  case case18 =>
    intro span parts ns ihs ms h
    obtain ⟨ts, hts, h⟩ := Option.bind_eq_some_iff.mp h
    cases h
    exact Replaces.cons (replaces_fallback span parts).2 (ihs ts hts)
  case case19 =>
    intro ns _ _ _ _ ms h
    rw [toTargetMembers?] at h
    · cases h
    all_goals assumption
  -- other elements of an array
  case case22 =>
    intro n ns hne ih ihs ms h
    rw [toTargets?] at h
    · obtain ⟨t, ht, h⟩ := Option.bind_eq_some_iff.mp h
      obtain ⟨ts, hts, h⟩ := Option.bind_eq_some_iff.mp h
      cases h
      exact Replaces.cons (ih t ht) (ihs ts hts)
    · exact hne

end Node

end VueSetup.Script
