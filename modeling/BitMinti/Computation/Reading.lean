import BitMinti.Computation.StateExcept
import Mathlib.Data.List.Basic
import Mathlib.Tactic.Common

/-!
# Readers and writers

A reader takes values from the front of a list and leaves the rest.  It is a codec for a writer
when it reads back what was written, whatever follows, and accepts nothing else: what it accepts
starts with what the writer writes for the value.  Codecs compose: one after the other, a number
of times, and a number of times that is itself read first.  What has a codec parses in one way.
-/

set_option autoImplicit false

namespace BitMinti.Computation.Reading

open StateExcept

variable {β ε α γ δ : Type}

/-- Code that reads from the front of a list, or fails. -/
abbrev Reader (β ε α : Type) : Type := StateT (List β) (Except ε) α

/-! ## Reading back -/

/-- `x` reads `bytes` as `a`, whatever follows. -/
def Reads (x : Reader β ε α) (bytes : List β) (a : α) : Prop :=
  ∀ rest, x (bytes ++ rest) = .ok (a, rest)

theorem Reads.pure (a : α) : Reads (pure a : Reader β ε α) [] a := fun _ => rfl

variable {x : Reader β ε α}

theorem Reads.bind {f : α → Reader β ε γ} {bs cs : List β} {a : α} {c : γ}
    (h : Reads x bs a) (h' : Reads (f a) cs c) : Reads (x >>= f) (bs ++ cs) c := by
  intro rest
  simp only [Bind.bind, StateT.bind, Except.bind, List.append_assoc, h (cs ++ rest)]
  exact h' rest

theorem Reads.bind_nil {f : α → Reader β ε γ} {bs : List β} {a : α} {c : γ}
    (h : Reads x bs a) (h' : Reads (f a) [] c) : Reads (x >>= f) bs c := by
  have hbind := h.bind h'
  rwa [List.append_nil] at hbind

theorem Reads.bind_pure {bs : List β} {a : α} (f : α → γ) (h : Reads x bs a) :
    Reads (x >>= fun a => Pure.pure (f a)) bs (f a) :=
  h.bind_nil (Reads.pure (f a))

/-! ## Codecs -/

/-- The reader `x` belongs to the writer `enc`, for the values in `P`. -/
structure Codec (x : Reader β ε α) (enc : α → List β) (P : α → Prop) : Prop where
  reads : ∀ a, P a → Reads x (enc a) a
  exact : ∀ s, wp (fun _ => True) x (fun a rest => P a ∧ s = enc a ++ rest) s

section Basic

variable {x : Reader β ε α} {enc : α → List β} {P : α → Prop}

theorem Codec.map {Q : γ → Prop} (h : Codec x enc P) (f : α → γ) (g : γ → α)
    (hPQ : ∀ a, P a → Q (f a)) (hQP : ∀ c, Q c → P (g c)) (hgf : ∀ a, P a → g (f a) = a)
    (hfg : ∀ c, Q c → f (g c) = c) :
    Codec (x >>= fun a => pure (f a)) (fun c => enc (g c)) Q where
  reads c hc := by
    have hread := (h.reads (g c) (hQP c hc)).bind_pure f
    rwa [hfg c hc] at hread
  exact s := by
    simp only [wp_bind, wp_pure]
    refine wp_mono (h.exact s) fun a rest ha => ⟨hPQ a ha.1, ?_⟩
    rw [hgf a ha.1]
    exact ha.2

theorem Codec.refuse {Q : γ → Prop} (h : Codec x enc P) (bad : α → Prop) [DecidablePred bad] (e : ε)
    (f : α → γ) (g : γ → α) (hPQ : ∀ a, P a → ¬bad a → Q (f a))
    (hQP : ∀ c, Q c → P (g c) ∧ ¬bad (g c)) (hgf : ∀ a, P a → g (f a) = a)
    (hfg : ∀ c, Q c → f (g c) = c) :
    Codec (x >>= fun a => if bad a then throw e else pure (f a)) (fun c => enc (g c)) Q where
  reads c hc := by
    obtain ⟨hP, hgood⟩ := hQP c hc
    refine (h.reads (g c) hP).bind_nil ?_
    rw [if_neg hgood, hfg c hc]
    exact Reads.pure c
  exact s := by
    simp only [wp_bind]
    refine wp_mono (h.exact s) fun a rest ha => ?_
    split
    · trivial
    · rename_i hgood
      refine ⟨hPQ a ha.1 hgood, ?_⟩
      rw [hgf a ha.1]
      exact ha.2

theorem Codec.record {y : Reader β ε γ} {enc' : γ → List β} {Q : γ → Prop} {R : δ → Prop}
    (hx : Codec x enc P) (hy : Codec y enc' Q) (mk : α → γ → δ) (fst : δ → α) (snd : δ → γ)
    (hR : ∀ d, R d ↔ (P (fst d) ∧ Q (snd d)) ∧ mk (fst d) (snd d) = d)
    (hfst : ∀ a c, fst (mk a c) = a) (hsnd : ∀ a c, snd (mk a c) = c) :
    Codec (x >>= fun a => y >>= fun c => pure (mk a c)) (fun d => enc (fst d) ++ enc' (snd d))
      R where
  reads d hd := by
    obtain ⟨⟨hP, hQ⟩, hmk⟩ := (hR d).mp hd
    have h := Reads.bind (f := fun a => y >>= fun c => pure (mk a c)) (hx.reads _ hP)
      ((hy.reads _ hQ).bind_pure fun c => mk (fst d) c)
    rwa [hmk] at h
  exact s := by
    simp only [wp_bind, wp_pure]
    refine wp_mono (hx.exact s) fun a s₁ ha => ?_
    refine wp_mono (hy.exact s₁) fun c rest hc => ?_
    have hmk := hR (mk a c)
    rw [hfst, hsnd] at hmk ⊢
    refine ⟨hmk.mpr ⟨⟨ha.1, hc.1⟩, rfl⟩, ?_⟩
    rw [ha.2, hc.2, List.append_assoc]

end Basic

/-! ## Runs of values -/

/-- The first `n` elements; the error `e` where there are fewer. -/
def takeN (e : ε) (n : ℕ) : Reader β ε (List β) := fun s =>
  if n ≤ s.length then .ok (s.take n, s.drop n) else .error e

theorem takeN_codec (e : ε) (n : ℕ) :
    Codec (takeN e n : Reader β ε (List β)) (fun bs => bs) (·.length = n) where
  reads bs hbs := by
    rintro rest
    have hle : n ≤ (bs ++ rest).length := by
      rw [List.length_append]
      omega
    rw [takeN, if_pos hle, List.take_left' hbs, List.drop_left' hbs]
  exact s := by
    by_cases hle : n ≤ s.length
    · simp only [wp, takeN, if_pos hle]
      exact ⟨List.length_take_of_le hle, (List.take_append_drop n s).symm⟩
    · simp only [wp, takeN, if_neg hle]

/-- Read `n` values one after the other. -/
def many (x : Reader β ε α) : ℕ → Reader β ε (List α)
  | 0 => pure []
  | n + 1 => do
      let a ← x
      let l ← many x n
      pure (a :: l)

section Many

variable {x : Reader β ε α} {enc : α → List β} {P : α → Prop}

theorem Codec.many (h : Codec x enc P) (n : ℕ) :
    Codec (many x n) (fun l => l.flatMap enc) (fun l => l.length = n ∧ ∀ a ∈ l, P a) where
  reads l hl := by
    obtain ⟨hlen, hP⟩ := hl
    induction l generalizing n with
    | nil =>
      subst hlen
      exact Reads.pure []
    | cons a l ih =>
      subst hlen
      have hrest := ih l.length rfl fun c hc => hP c (List.mem_cons_of_mem _ hc)
      exact (h.reads a (hP a (by simp))).bind (hrest.bind_pure fun l => a :: l)
  exact s := by
    induction n generalizing s with
    | zero => exact ⟨⟨rfl, by simp⟩, rfl⟩
    | succ n ih =>
      simp only [Reading.many, wp_bind, wp_pure]
      refine wp_mono (h.exact s) fun a s₁ ha => ?_
      refine wp_mono (ih s₁) fun l rest hl => ?_
      obtain ⟨⟨hlen, hP⟩, hs₁⟩ := hl
      refine ⟨⟨by rw [List.length_cons, hlen], List.forall_mem_cons.mpr ⟨ha.1, hP⟩⟩, ?_⟩
      rw [ha.2, hs₁, List.flatMap_cons, List.append_assoc]

/-- **A count and that many values.** -/
theorem Codec.counted {c : Reader β ε ℕ} {encC : ℕ → List β} {C : ℕ → Prop} (hc : Codec c encC C)
    {y : ℕ → Reader β ε δ} {size : δ → ℕ} {enc' : δ → List β} {Q : δ → Prop}
    (hy : ∀ n, Codec (y n) enc' (fun d => size d = n ∧ Q d)) :
    Codec (c >>= y) (fun d => encC (size d) ++ enc' d) (fun d => C (size d) ∧ Q d) where
  reads d hd := (hc.reads _ hd.1).bind ((hy (size d)).reads d ⟨rfl, hd.2⟩)
  exact s := by
    simp only [wp_bind]
    refine wp_mono (hc.exact s) fun n s₁ hn => ?_
    refine wp_mono ((hy n).exact s₁) fun d rest hd => ?_
    obtain ⟨⟨rfl, hQ⟩, hs₁⟩ := hd
    refine ⟨⟨hn.1, hQ⟩, ?_⟩
    rw [hn.2, hs₁, List.append_assoc]

end Many

/-! ## Unique parsing -/

/-- What follows an encoding cannot change where it ends or what it stands for. -/
def SelfDelimiting (enc : α → List β) (P : α → Prop) : Prop :=
  ∀ ⦃a a'⦄, P a → P a' → ∀ ⦃r r'⦄, enc a ++ r = enc a' ++ r' → a = a' ∧ r = r'

theorem Codec.selfDelimiting {enc : α → List β} {P : α → Prop}
    (h : Codec x enc P) : SelfDelimiting enc P := by
  intro a a' ha ha' r r' heq
  have hread := h.reads a ha r
  rw [heq, h.reads a' ha' r'] at hread
  cases hread
  exact ⟨rfl, rfl⟩

/-- **Encodings that follow each other**, without their number, determine the values. -/
theorem SelfDelimiting.flatMap {enc : α → List β} {P : α → Prop} (h : SelfDelimiting enc P)
    (hne : ∀ a, P a → enc a ≠ []) {l l' : List α} (hl : ∀ a ∈ l, P a) (hl' : ∀ a ∈ l', P a)
    (heq : l.flatMap enc = l'.flatMap enc) : l = l' := by
  induction l generalizing l' with
  | nil =>
    cases l' with
    | nil => rfl
    | cons a' l' =>
      rw [List.flatMap_nil, List.flatMap_cons] at heq
      exact absurd (List.append_eq_nil_iff.mp heq.symm).1 (hne a' (hl' a' List.mem_cons_self))
  | cons a l ih =>
    cases l' with
    | nil =>
      rw [List.flatMap_nil, List.flatMap_cons] at heq
      exact absurd (List.append_eq_nil_iff.mp heq).1 (hne a (hl a List.mem_cons_self))
    | cons a' l' =>
      rw [List.flatMap_cons, List.flatMap_cons] at heq
      obtain ⟨rfl, hrest⟩ := h (hl a List.mem_cons_self) (hl' a' List.mem_cons_self) heq
      rw [ih (fun b hb => hl b (List.mem_cons_of_mem _ hb))
        (fun b hb => hl' b (List.mem_cons_of_mem _ hb)) hrest]

end BitMinti.Computation.Reading
