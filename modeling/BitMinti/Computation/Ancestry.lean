import Mathlib.Data.Nat.Basic
import Mathlib.Data.Option.Basic

/-!
# Parent pointers

A forest given by a partial parent function `prev` on keys.  `up prev n k` is the key
`n` parents above `k`.  A forest is `Graded` on a set of keys when every parent is one
of the keys and lies exactly one rank below, and only rank-zero keys are roots; then a
key of rank `r` has exactly the ancestors of ranks `0, …, r`, and `up` finds them.
-/

set_option autoImplicit false

namespace BitMinti.Computation.Ancestry

variable {K : Type}

/-- The key `n` parents above `k`, if the chain of parents is that long. -/
def up (prev : K → Option K) : ℕ → K → Option K
  | 0, k => some k
  | n + 1, k => (prev k).bind (up prev n)

section Up

variable (prev : K → Option K)

@[simp] theorem up_zero (k : K) : up prev 0 k = some k := rfl

theorem up_succ (n : ℕ) (k : K) : up prev (n + 1) k = (prev k).bind (up prev n) := rfl

@[simp] theorem up_one (k : K) : up prev 1 k = prev k := by
  simp [up_succ, Option.bind_fun_some, show up prev 0 = some from rfl]

theorem up_add (m n : ℕ) (k : K) : up prev (m + n) k = (up prev m k).bind (up prev n) := by
  induction m generalizing k with
  | zero => simp
  | succ m ih =>
    rw [Nat.succ_add, up_succ, up_succ, Option.bind_assoc]
    congr 1
    funext p
    exact ih p

theorem up_succ_right (n : ℕ) (k : K) : up prev (n + 1) k = (up prev n k).bind prev := by
  rw [up_add]
  congr 1
  funext p
  exact up_one prev p

theorem up_trans {n m : ℕ} {k a b : K} (ha : up prev n k = some a) (hb : up prev m a = some b) :
    up prev (n + m) k = some b := by
  rw [up_add, ha, Option.bind_some, hb]

end Up

/-! ## Ancestors -/

/-- `b` is `a` or an ancestor of it. -/
def AncestorOf (prev : K → Option K) (b a : K) : Prop := ∃ n, up prev n a = some b

section AncestorOf

variable {prev : K → Option K} {a b c f : K}

theorem AncestorOf.refl (a : K) : AncestorOf prev a a := ⟨0, rfl⟩

theorem AncestorOf.trans (h : AncestorOf prev c b) (h' : AncestorOf prev b a) :
    AncestorOf prev c a := by
  obtain ⟨n, hn⟩ := h
  obtain ⟨k, hk⟩ := h'
  exact ⟨k + n, up_trans _ hk hn⟩

theorem AncestorOf.parent (h : prev a = some b) : AncestorOf prev b a := ⟨1, by rw [up_one, h]⟩

theorem AncestorOf.eq_or_parent (h : AncestorOf prev b a) :
    b = a ∨ ∃ p, prev a = some p ∧ AncestorOf prev b p := by
  obtain ⟨n, hn⟩ := h
  cases n with
  | zero => exact .inl (Option.some_inj.mp hn).symm
  | succ n =>
    obtain ⟨p, hp, hpb⟩ := Option.bind_eq_some_iff.mp hn
    exact .inr ⟨p, hp, n, hpb⟩

theorem AncestorOf.eq_of_root (h : AncestorOf prev b a) (hroot : prev a = none) : b = a := by
  rcases h.eq_or_parent with rfl | ⟨p, hp, -⟩
  · rfl
  · rw [hroot] at hp
    cases hp

theorem AncestorOf.ascend {P : K → Prop} (h : AncestorOf prev b a) (ha : P a)
    (hstep : ∀ k p, prev k = some p → P k → P p) : P b := by
  obtain ⟨n, hn⟩ := h
  induction n generalizing a with
  | zero =>
    cases hn
    exact ha
  | succ n ih =>
    obtain ⟨p, hp, hpb⟩ := Option.bind_eq_some_iff.mp hn
    exact ih (hstep a p hp ha) hpb

/-- `f` is the last key that `a` and `b` have above them in common. -/
structure LastCommon (prev : K → Option K) (a b f : K) : Prop where
  left : AncestorOf prev f a
  right : AncestorOf prev f b
  last : ∀ c, AncestorOf prev c a → AncestorOf prev c b → AncestorOf prev c f

end AncestorOf

/-! ## Graded forests -/

/-- A forest whose parents stay in `dom` and lie exactly one rank lower. -/
structure Graded (prev : K → Option K) (dom : K → Prop) (rank : K → ℕ) : Prop where
  parent : ∀ k p, dom k → prev k = some p → dom p ∧ rank k = rank p + 1
  root : ∀ k, dom k → prev k = none → rank k = 0

namespace Graded

variable {prev : K → Option K} {dom : K → Prop} {rank : K → ℕ}

section

variable (G : Graded prev dom rank)

include G

theorem of_up {n : ℕ} {k a : K} (hk : dom k)
    (ha : up prev n k = some a) : dom a ∧ rank k = rank a + n := by
  induction n generalizing k with
  | zero =>
    cases ha
    exact ⟨hk, rfl⟩
  | succ n ih =>
    obtain ⟨p, hp, hpa⟩ := Option.bind_eq_some_iff.mp ha
    obtain ⟨hdp, hr⟩ := G.parent k p hk hp
    obtain ⟨hda, hra⟩ := ih hdp hpa
    exact ⟨hda, by omega⟩

/-- **A key of rank `r` has an ancestor at every distance up to `r`.** -/
theorem exists_up {n : ℕ} {k : K} (hk : dom k) (hn : n ≤ rank k) :
    ∃ a, up prev n k = some a := by
  induction n generalizing k with
  | zero => exact ⟨k, rfl⟩
  | succ n ih =>
    cases hp : prev k with
    | none =>
      have := G.root k hk hp
      omega
    | some p =>
      obtain ⟨hdp, hr⟩ := G.parent k p hk hp
      obtain ⟨a, ha⟩ := ih hdp (by omega)
      exact ⟨a, by rw [up_succ, hp, Option.bind_some, ha]⟩

theorem up_of_ancestor {a b : K} (ha : dom a) (h : AncestorOf prev b a) :
    dom b ∧ rank b ≤ rank a ∧ up prev (rank a - rank b) a = some b := by
  obtain ⟨n, hn⟩ := h
  obtain ⟨hb, hrank⟩ := G.of_up ha hn
  refine ⟨hb, by omega, ?_⟩
  rw [hrank, Nat.add_sub_cancel_left, hn]

theorem ancestor_of_le {a b c : K} (ha : dom a)
    (hb : AncestorOf prev b a) (hc : AncestorOf prev c a) (hle : rank c ≤ rank b) :
    AncestorOf prev c b := by
  obtain ⟨-, hleb, hupb⟩ := G.up_of_ancestor ha hb
  obtain ⟨-, hlec, hupc⟩ := G.up_of_ancestor ha hc
  refine ⟨rank b - rank c, ?_⟩
  have hsplit : rank a - rank c = rank a - rank b + (rank b - rank c) := by omega
  rw [hsplit, up_add, hupb, Option.bind_some] at hupc
  exact hupc

theorem eq_of_ancestor {a b : K} (ha : dom a)
    (h : AncestorOf prev b a) (hrank : rank a ≤ rank b) : b = a := by
  obtain ⟨-, -, hup⟩ := G.up_of_ancestor ha h
  rw [Nat.sub_eq_zero_of_le hrank, up_zero, Option.some_inj] at hup
  exact hup.symm

theorem antisymm {a b : K} (ha : dom a) (h : AncestorOf prev b a)
    (h' : AncestorOf prev a b) : b = a := by
  obtain ⟨hb, -, -⟩ := G.up_of_ancestor ha h
  obtain ⟨-, hle, -⟩ := G.up_of_ancestor hb h'
  exact G.eq_of_ancestor ha h hle

/-- What two keys have in common is below any two ancestors of them that differ at one rank. -/
theorem rank_lt_of_ne {a b a' b' c : K} (ha : dom a) (hb : dom b) (haa : AncestorOf prev a' a)
    (hbb : AncestorOf prev b' b) (hrank : rank a' = rank b') (hne : a' ≠ b')
    (hca : AncestorOf prev c a) (hcb : AncestorOf prev c b) : rank c < rank a' := by
  by_contra hge
  have hac := G.ancestor_of_le ha hca haa (by omega)
  have hbc := G.ancestor_of_le hb hcb hbb (by omega)
  have hab := G.ancestor_of_le (G.up_of_ancestor ha hca).1 hbc hac (by omega)
  exact hne (G.eq_of_ancestor (G.up_of_ancestor hb hbb).1 hab (by omega))

/-- A common ancestor is the last one when none has a higher rank. -/
theorem lastCommon_of_rank_le {a b f : K} (ha : dom a) (hfa : AncestorOf prev f a)
    (hfb : AncestorOf prev f b)
    (hlow : ∀ c, AncestorOf prev c a → AncestorOf prev c b → rank c ≤ rank f) :
    LastCommon prev a b f :=
  ⟨hfa, hfb, fun c hca hcb => G.ancestor_of_le ha hfa hca (hlow c hca hcb)⟩

theorem up_congr {prev' : K → Option K}
    (h : ∀ k, dom k → prev' k = prev k) (n : ℕ) {k : K} (hk : dom k) :
    up prev' n k = up prev n k := by
  induction n generalizing k with
  | zero => rfl
  | succ n ih =>
    rw [up_succ, up_succ, h k hk]
    cases hp : prev k with
    | none => rfl
    | some p => exact ih (G.parent k p hk hp).1

end

end Graded

/-! ## Lists that thin out -/

/-- Ancestors of `top` from the one `n` parents up to a root, none of them more than about twice
as far up as the one before. -/
inductive Thinned (prev : K → Option K) (top : K) : ℕ → List K → Prop
  | root {n : ℕ} {k : K} (hk : up prev n top = some k) (hroot : prev k = none) :
      Thinned prev top n [k]
  | cons {n n' : ℕ} {k : K} {rest : List K} (hk : up prev n top = some k) (hlt : n < n')
      (hle : n' ≤ 2 * (n + 1)) (hrest : Thinned prev top n' rest) : Thinned prev top n (k :: rest)

namespace Thinned

variable {prev : K → Option K} {top : K} {n : ℕ} {l : List K}

theorem ancestor (h : Thinned prev top n l) : ∀ k ∈ l, ∃ j ≥ n, up prev j top = some k := by
  induction h with
  | root hk hroot =>
    exact List.forall_mem_singleton.mpr ⟨_, le_rfl, hk⟩
  | cons hk hlt hle hrest ih =>
    refine List.forall_mem_cons.mpr ⟨⟨_, le_rfl, hk⟩, fun k hmem => ?_⟩
    obtain ⟨j, hj, hup⟩ := ih k hmem
    exact ⟨j, by omega, hup⟩

theorem exists_last (h : Thinned prev top n l) : ∃ k, l.getLast? = some k ∧ prev k = none := by
  induction h with
  | root hk hroot => exact ⟨_, rfl, hroot⟩
  | @cons n n' k rest hk hlt hle hrest ih =>
    obtain ⟨r, hlast, hroot⟩ := ih
    refine ⟨r, ?_, hroot⟩
    rw [List.getLast?_cons, hlast, Option.getD_some]

theorem pairwise_rank {dom : K → Prop} {rank : K → ℕ} (h : Thinned prev top n l)
    (G : Graded prev dom rank) (htop : dom top) : l.Pairwise fun a b => rank b < rank a := by
  induction h with
  | root hk hroot => exact List.pairwise_singleton _ _
  | cons hk hlt hle hrest ih =>
    refine List.pairwise_cons.mpr ⟨fun b hb => ?_, ih⟩
    obtain ⟨j, hj, hup⟩ := hrest.ancestor b hb
    have hrankk := (G.of_up htop hk).2
    have hrankb := (G.of_up htop hup).2
    omega

/-- **The first entry at least `d` up is at most `2 * d` up**, for every distance `d`
that `top` has an ancestor at. -/
theorem split (h : Thinned prev top n l) {d : ℕ} {f : K} (hd : up prev d top = some f)
    (hn : n ≤ 2 * d) :
    ∃ front x back j, l = front ++ x :: back ∧ (∀ y ∈ front, ∃ i < d, up prev i top = some y) ∧
      d ≤ j ∧ j ≤ 2 * d ∧ up prev j top = some x := by
  induction h with
  | @root n k hk hroot =>
    refine ⟨[], k, [], n, rfl, List.forall_mem_nil _, ?_, hn, hk⟩
    -- beyond a root there is nothing
    by_contra hlt
    obtain ⟨i, rfl⟩ : ∃ i, d = n + (i + 1) := ⟨d - n - 1, by omega⟩
    rw [up_add, hk, Option.bind_some, up_succ, hroot] at hd
    cases hd
  | @cons n n' k rest hk hlt hle hrest ih =>
    by_cases hdn : d ≤ n
    · exact ⟨[], k, rest, n, rfl, List.forall_mem_nil _, hdn, hn, hk⟩
    · obtain ⟨front, x, back, j, rfl, hfront, hj⟩ := ih (by omega)
      exact ⟨k :: front, x, back, j, rfl,
        List.forall_mem_cons.mpr ⟨⟨n, by omega, hk⟩, hfront⟩, hj⟩

end Thinned

end BitMinti.Computation.Ancestry
