import Mathlib.Logic.Relation
import Mathlib.Logic.Function.Iterate
import Mathlib.Data.List.Basic

/-!
# Reaching the nodes of a finite graph

The nodes that can be reached from a list of nodes are found by as many rounds as there are
nodes.  Each round keeps what is known and adds what is one edge away.
-/

set_option autoImplicit false

namespace BitMinti.Computation

variable {α : Type} [DecidableEq α]

/-- One round: the nodes that are known, or one edge away from a known one. -/
def spread (edge : α → α → Bool) (nodes known : List α) : List α :=
  nodes.filter fun x => decide (x ∈ known) || known.any fun a => edge a x

/-- The nodes that can be reached from `start`. -/
def reached (edge : α → α → Bool) (nodes start : List α) : List α :=
  (spread edge nodes)^[nodes.length] start

variable {edge : α → α → Bool} {nodes known start : List α} {a x : α}

theorem mem_spread :
    x ∈ spread edge nodes known ↔ x ∈ nodes ∧ (x ∈ known ∨ ∃ a ∈ known, edge a x = true) := by
  simp [spread]

theorem mem_iterate_spread (n : ℕ) (hx : x ∈ nodes) (hknown : x ∈ known) :
    x ∈ (spread edge nodes)^[n] known := by
  induction n generalizing known with
  | zero => exact hknown
  | succ n ih => exact ih (mem_spread.mpr ⟨hx, Or.inl hknown⟩)

theorem mem_reached_of_mem (hx : x ∈ nodes) (hstart : x ∈ start) :
    x ∈ reached edge nodes start :=
  mem_iterate_spread _ hx hstart

theorem mem_reached_of_edge (hx : x ∈ nodes) (ha : a ∈ start) (hedge : edge a x = true) :
    x ∈ reached edge nodes start := by
  obtain ⟨n, hn⟩ := Nat.exists_eq_succ_of_ne_zero (Nat.pos_iff_ne_zero.mp (List.length_pos_of_mem hx))
  rw [reached, hn]
  exact mem_iterate_spread n hx (mem_spread.mpr ⟨hx, Or.inr ⟨a, ha, hedge⟩⟩)

/-- **Whatever is reached lies on a path**, all of whose later nodes are nodes of the graph. -/
theorem path_of_mem_reached (hx : x ∈ reached edge nodes start) :
    ∃ a ∈ start, Relation.ReflTransGen (fun y z => edge y z = true ∧ z ∈ nodes) a x := by
  suffices h : ∀ (n : ℕ) (known : List α), x ∈ (spread edge nodes)^[n] known →
      ∃ a ∈ known, Relation.ReflTransGen (fun y z => edge y z = true ∧ z ∈ nodes) a x from
    h _ start hx
  intro n
  induction n with
  | zero => exact fun known hx => ⟨x, hx, .refl⟩
  | succ n ih =>
    intro known hx
    obtain ⟨b, hb, hpath⟩ := ih _ hx
    obtain ⟨hnode, hb | ⟨a, ha, hedge⟩⟩ := mem_spread.mp hb
    · exact ⟨b, hb, hpath⟩
    · exact ⟨a, ha, .head ⟨hedge, hnode⟩ hpath⟩

/-- If only one node is reached from `x`, no edge leads from it to another node. -/
theorem edge_self_of_reached_length (hx : x ∈ nodes) (ha : a ∈ nodes) (hedge : edge x a = true)
    (hlen : (reached edge nodes [x]).length ≤ 1) : a = x := by
  have hmem : x ∈ reached edge nodes [x] := mem_reached_of_mem hx (by simp)
  have hnext : a ∈ reached edge nodes [x] := mem_reached_of_edge ha (by simp) hedge
  obtain ⟨y, hy⟩ := List.length_eq_one_iff.mp
    (Nat.le_antisymm hlen (List.length_pos_of_mem hmem))
  rw [hy, List.mem_singleton] at hmem hnext
  rw [hmem, hnext]

end BitMinti.Computation
