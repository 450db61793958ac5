import BinaryLayout.Format
import BinaryLayout.Proofs.Equality.Numbers
import Mathlib.Data.List.Forall2
import Mathlib.Data.Option.Basic

/-!
# When two trees are equal

Trees are compared node by node, from the root down.  What the comparison comes to can be said of
all nodes at once: at every place there is a node in both trees or in neither, and two nodes at one
place are alike.  So equality is symmetric and transitive, and a tree is unequal to itself only for
a NaN somewhere in it.

There are three groups.

* Nodes.  `children` are the nodes directly under a node, `node?` is the node that a path leads to,
  and `induction_on_children` is induction over a tree.
* Nodes alike.  `Alike` compares two nodes without what is under them, and `equal_iff_children` is
  one step of the comparison of trees.
* Trees.  `equal_iff_nodes` is the induction, and `equal_cases` draws the consequences.
-/

namespace BinaryLayout

namespace Datum

/-! ## Nodes -/

/-- The nodes directly under a node. -/
def children : Datum → List Datum
  | .number _ => []
  | .text _ => []
  | .sequence items => items
  | .mapping fields => fields.toList.map (·.2)

/-- The node that a path leads to, child by child. -/
def node? : List Nat → Datum → Option Datum
  | [], d => some d
  | i :: path, d => d.children[i]?.bind (node? path)

mutual

/-- What holds of a node if it holds of the nodes under it holds of every tree. -/
theorem induction_on_children {holds : Datum → Prop}
    (step : ∀ d : Datum, (∀ child ∈ d.children, holds child) → holds d) : (d : Datum) → holds d
  | .number n => step (.number n) fun _ h => absurd h List.not_mem_nil
  | .text s => step (.text s) fun _ h => absurd h List.not_mem_nil
  | .sequence items => step (.sequence items) (induction_on_items step items)
  | .mapping fields => step (.mapping fields) (induction_on_fields step fields)

theorem induction_on_items {holds : Datum → Prop}
    (step : ∀ d : Datum, (∀ child ∈ d.children, holds child) → holds d) :
    (items : List Datum) → ∀ item ∈ items, holds item
  | [] => fun _ h => absurd h List.not_mem_nil
  | item :: items => List.forall_mem_cons.2
      ⟨induction_on_children step item, induction_on_items step items⟩

theorem induction_on_fields {holds : Datum → Prop}
    (step : ∀ d : Datum, (∀ child ∈ d.children, holds child) → holds d) :
    (fields : Mapping Datum) → ∀ value ∈ fields.toList.map (·.2), holds value
  | .empty => fun _ h => absurd h List.not_mem_nil
  | .entry _ value fields => List.forall_mem_cons.2
      ⟨induction_on_children step value, induction_on_fields step fields⟩

end

/-! ## Nodes alike -/

/-- The nodes are of one kind and agree in what they hold, the nodes under them apart. -/
inductive Alike : Datum → Datum → Prop
  | number {m n : Number} (h : m.Agrees n) : Alike (.number m) (.number n)
  | text (s : String) : Alike (.text s) (.text s)
  | sequence {xs ys : List Datum} (h : xs.length = ys.length) : Alike (.sequence xs) (.sequence ys)
  | mapping {xs ys : Mapping Datum} (h : xs.keys = ys.keys) : Alike (.mapping xs) (.mapping ys)

variable {u v w : Datum}

theorem Alike.symm (h : Alike v w) : Alike w v := by
  cases h with
  | number h => exact .number h.symm
  | text s => exact .text s
  | sequence h => exact .sequence h.symm
  | mapping h => exact .mapping h.symm

theorem Alike.trans (h : Alike u v) (hmore : Alike v w) : Alike u w := by
  cases h with
  | number h =>
    cases hmore with
    | number hmore => exact .number (h.trans hmore)
  | text s => exact hmore
  | sequence h =>
    cases hmore with
    | sequence hmore => exact .sequence (h.trans hmore)
  | mapping h =>
    cases hmore with
    | mapping hmore => exact .mapping (h.trans hmore)

/-- Only a NaN is not alike itself. -/
theorem alike_self_iff (d : Datum) : Alike d d ↔ ∀ n, d = .number n → n.isNaN = false := by
  constructor
  · rintro h n rfl
    cases h with
    | number h => exact (Number.agrees_self_iff n).1 h
  · intro h
    cases d with
    | number n => exact .number ((Number.agrees_self_iff n).2 (h n rfl))
    | text s => exact .text s
    | sequence items => exact .sequence rfl
    | mapping fields => exact .mapping rfl

/-- Nodes that are alike have as many nodes under them. -/
theorem Alike.length_children (h : Alike v w) : v.children.length = w.children.length := by
  cases h with
  | number | text => rfl
  | sequence h => exact h
  | mapping h =>
    have hlength := congrArg List.length h
    rw [Mapping.keys, Mapping.keys, List.length_map, List.length_map] at hlength
    rw [children, children, List.length_map, List.length_map, hlength]

theorem equalItems_iff {xs ys : List Datum} :
    equalItems xs ys = true ↔ List.Forall₂ (fun x y => x.equal y = true) xs ys := by
  induction xs generalizing ys with
  | nil => cases ys <;> simp [equalItems]
  | cons x xs ih => cases ys <;> simp [equalItems, ih]

theorem equalFields_iff {xs ys : Mapping Datum} :
    equalFields xs ys = true ↔ xs.keys = ys.keys ∧
      List.Forall₂ (fun x y => x.equal y = true) (xs.toList.map (·.2)) (ys.toList.map (·.2)) := by
  induction xs generalizing ys with
  | empty => cases ys <;> simp [equalFields, Mapping.keys, Mapping.toList]
  | entry key x xs ih =>
    cases ys with
    | empty => simp [equalFields, Mapping.keys, Mapping.toList]
    | entry other y ys =>
      simp only [equalFields, Bool.and_eq_true, beq_iff_eq, ih, Mapping.keys, Mapping.toList,
        List.map_cons, List.cons.injEq, List.forall₂_cons]
      tauto

/-- Trees are equal if their roots are alike and the trees under them are equal in turn. -/
theorem equal_iff_children (v w : Datum) :
    v.equal w = true ↔
      Alike v w ∧ List.Forall₂ (fun x y => x.equal y = true) v.children w.children := by
  constructor
  · intro h
    cases v with
    | number m =>
      cases w with
      | number n => exact ⟨.number ((m.equal_iff n).1 h), .nil⟩
      | _ => cases h
    | text s =>
      cases w with
      | text t =>
        obtain rfl : s = t := beq_iff_eq.1 h
        exact ⟨.text s, .nil⟩
      | _ => cases h
    | sequence xs =>
      cases w with
      | sequence ys =>
        have hitems := equalItems_iff.1 h
        exact ⟨.sequence hitems.length_eq, hitems⟩
      | _ => cases h
    | mapping xs =>
      cases w with
      | mapping ys =>
        obtain ⟨hkeys, hvalues⟩ := equalFields_iff.1 h
        exact ⟨.mapping hkeys, hvalues⟩
      | _ => cases h
  · rintro ⟨h, hchildren⟩
    cases h with
    | number h => exact (Number.equal_iff _ _).2 h
    | text s => exact beq_self_eq_true s
    | sequence h => exact equalItems_iff.2 hchildren
    | mapping h => exact equalFields_iff.2 ⟨h, hchildren⟩

/-! ## Trees -/

/-- At every place there is a node in both trees or in neither, and if there are nodes they are
alike. -/
def AlikeEverywhere (v w : Datum) : Prop := ∀ path, Option.Rel Alike (v.node? path) (w.node? path)

theorem AlikeEverywhere.symm (h : AlikeEverywhere v w) : AlikeEverywhere w v := by
  intro path
  have hpath := h path
  generalize v.node? path = x at hpath
  generalize w.node? path = y at hpath
  cases hpath with
  | some hpath => exact .some hpath.symm
  | none => exact .none

theorem AlikeEverywhere.trans (h : AlikeEverywhere u v) (hmore : AlikeEverywhere v w) :
    AlikeEverywhere u w := by
  intro path
  have hfirst := h path
  have hsecond := hmore path
  generalize u.node? path = x at hfirst
  generalize v.node? path = y at hfirst hsecond
  generalize w.node? path = z at hsecond
  cases hfirst with
  | some hfirst =>
    cases hsecond with
    | some hsecond => exact .some (hfirst.trans hsecond)
  | none => exact hsecond

/-- Where a tree is not alike itself there is a NaN. -/
theorem alikeEverywhere_self_iff (d : Datum) :
    AlikeEverywhere d d ↔ ∀ path n, d.node? path = some (.number n) → n.isNaN = false := by
  constructor
  · intro h path n hn
    have hpath := h path
    rw [hn] at hpath
    cases hpath with
    | some hpath => exact (alike_self_iff _).1 hpath n rfl
  · intro h path
    cases hnode : d.node? path with
    | none => exact .none
    | some node =>
      refine .some ((alike_self_iff node).2 ?_)
      rintro n rfl
      exact h path n hnode

theorem rel_getElem? {xs ys : List Datum} {related : Datum → Datum → Prop}
    (h : List.Forall₂ related xs ys) (i : Nat) : Option.Rel related xs[i]? ys[i]? := by
  induction h generalizing i with
  | nil => exact .none
  | cons hfirst _ ih =>
    cases i with
    | zero => exact .some hfirst
    | succ i => exact ih i

/-- Trees are equal exactly if all their nodes are alike. -/
theorem equal_iff_nodes (v w : Datum) : v.equal w = true ↔ AlikeEverywhere v w := by
  constructor
  · intro h path
    induction path generalizing v w with
    | nil => exact .some ((equal_iff_children v w).1 h).1
    | cons i path ih =>
      have hchild := rel_getElem? ((equal_iff_children v w).1 h).2 i
      rw [node?, node?]
      generalize v.children[i]? = x at hchild
      generalize w.children[i]? = y at hchild
      cases hchild with
      | some hequal => exact ih _ _ hequal
      | none => exact .none
  · intro h
    induction v using induction_on_children generalizing w with
    | step v ih =>
      have hroot : Alike v w := by
        cases h [] with
        | some hroot => exact hroot
      have hlength := hroot.length_children
      refine (equal_iff_children v w).2 ⟨hroot, List.forall₂_iff_get.2 ⟨hlength, ?_⟩⟩
      intro i hv hw
      refine ih _ (List.get_mem _ _) _ fun path => ?_
      have hpath := h (i :: path)
      rwa [node?, node?, List.getElem?_eq_getElem hv, List.getElem?_eq_getElem hw] at hpath

/-- **Equality of trees is a partial equivalence that fails only on NaN.**

It is symmetric and transitive.  A tree is equal to itself exactly if no number in it is a NaN, at
whatever place.  Two trees are equal exactly if all their nodes are alike: of one kind, with the
same text, as many items, or the same names in the same order, and numbers read in the same way that
stand for the same.  So two runs of a format on one payload are equal exactly if no leaf is a
NaN. -/
theorem equal_cases :
    (∀ v w : Datum, v.equal w = true → w.equal v = true) ∧
      (∀ u v w : Datum, u.equal v = true → v.equal w = true → u.equal w = true) ∧
      (∀ v : Datum, v.equal v = true ↔
        ∀ path n, v.node? path = some (.number n) → n.isNaN = false) ∧
      (∀ v w : Datum, v.equal w = true ↔
        ∀ path, Option.Rel Alike (v.node? path) (w.node? path)) ∧
      ∀ (format : Format) (bytes : Payload) (offset : Int),
        equalItems (format.decode bytes offset) (format.decode bytes offset) = true ↔
          ∀ d ∈ format.decode bytes offset,
            ∀ path n, d.node? path = some (.number n) → n.isNaN = false := by
  have hself (d : Datum) : d.equal d = true ↔
      ∀ path n, d.node? path = some (.number n) → n.isNaN = false := by
    rw [equal_iff_nodes, alikeEverywhere_self_iff]
  refine ⟨fun v w h => ?_, fun u v w h hmore => ?_, hself, equal_iff_nodes, ?_⟩
  · rw [equal_iff_nodes] at h ⊢
    exact h.symm
  · rw [equal_iff_nodes] at h hmore ⊢
    exact h.trans hmore
  · intro format bytes offset
    rw [equalItems_iff, List.forall₂_same]
    exact forall₂_congr fun d _ => hself d

/-- The two zeros under a name, and a NaN two levels down. -/
theorem equal_cases_of_zeros :
    let zero : Datum := .sequence [.mapping (.ofList [("a", .number (.float ⟨0⟩))])]
    let minus : Datum :=
      .sequence [.mapping (.ofList [("a", .number (.float ⟨0x8000000000000000⟩))])]
    let missing : Datum := .sequence [.text "", .sequence [.number .overrun]]
    zero.equal minus = true ∧ minus.equal zero = true ∧ missing.equal missing = false := by
  intro zero minus missing
  obtain ⟨hsymm, _, hself, _⟩ := equal_cases
  have hequal : zero.equal minus = true := by decide +kernel
  refine ⟨hequal, hsymm zero minus hequal, Bool.eq_false_iff.2 fun h => ?_⟩
  exact absurd ((hself missing).1 h [1, 0] .overrun rfl) (by decide)

end Datum

end BinaryLayout
