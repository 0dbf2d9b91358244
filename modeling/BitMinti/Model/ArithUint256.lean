import BitMinti.Computation.Limbs

/-!
# `uint256` and `arith_uint256`

`Uint256` is the opaque 32-byte blob the node uses for hashes and identifiers,
read as the little-endian number its bytes spell; `Uint256.isNull` is the all-zero
blob.  `ArithUint256` is `base_uint<256>`: eight 32-bit limbs `pn`, least
significant first, with the loops of `arith_uint256.cpp` written over the limb
list.  Nothing here is arithmetic on numbers: that the limb loops compute sums,
products and quotients modulo `2 ^ 256` is proved in
`BitMinti.Analysis.ArithUint256`.

SOURCE: src/src/arith_uint256.cpp:13-230, src/src/arith_uint256.h:24-290
-/

set_option autoImplicit false

namespace BitMinti.Model

open Computation.Limbs (Limb low addLoop mulRow orAt)

/-- The 256-bit blob of `uint256.h`, as the little-endian number of its bytes. -/
abbrev Uint256 : Type := BitVec 256

/-- `base_blob::IsNull`: every byte is zero. -/
def Uint256.isNull (h : Uint256) : Bool := h == 0#256

def WIDTH : ℕ := 8

/-- `base_uint<256>`: `WIDTH` limbs, least significant first. -/
structure ArithUint256 where
  pn : List Limb
  length_pn : pn.length = WIDTH

/-- The exception `base_uint::operator/=` throws. -/
inductive UintError where
  | divisionByZero
  deriving DecidableEq, Repr

namespace BaseUint

/-! ## The limb loops -/

/-- `operator~`. -/
def compl (a : List Limb) : List Limb := a.map (~~~ ·)

/-- `operator++`: increment limb after limb while the increment wraps to zero. -/
def inc : List Limb → List Limb
  | [] => []
  | x :: xs => if x + 1 = 0 then (x + 1) :: inc xs else (x + 1) :: xs

/-- `operator+=`. -/
def add (a b : List Limb) : List Limb := addLoop a b 0

/-- Unary `operator-`: complement and increment. -/
def neg (b : List Limb) : List Limb := inc (compl b)

/-- `operator-=`: `*this += -b`. -/
def sub (a b : List Limb) : List Limb := add a (neg b)

/-- `operator*=(const base_uint&)`: row `j` adds `pn[j] * b` to the limbs from `j` on. -/
def mul (x b : List Limb) : List Limb :=
  (List.range x.length).foldl
    (fun a j => a.take j ++ mulRow (x.getD j 0#32) (a.drop j) b 0)
    (List.replicate x.length 0#32)

/-- One pass of the `operator<<=` loop: limb `i` is scattered over two target limbs. -/
def shiftLeftStep (a : List Limb) (k s : ℕ) (pn : List Limb) (i : ℕ) : List Limb :=
  orAt (decide (i + k < a.length)) (i + k) (a.getD i 0#32 <<< s)
    (orAt (decide (i + k + 1 < a.length ∧ s ≠ 0)) (i + k + 1) (a.getD i 0#32 >>> (32 - s)) pn)

/-- `operator<<=`. -/
def shiftLeft (a : List Limb) (shift : ℕ) : List Limb :=
  (List.range a.length).foldl (shiftLeftStep a (shift / 32) (shift % 32))
    (List.replicate a.length 0#32)

/-- One pass of the `operator>>=` loop. -/
def shiftRightStep (a : List Limb) (k s : ℕ) (pn : List Limb) (i : ℕ) : List Limb :=
  orAt (decide (k ≤ i)) (i - k) (a.getD i 0#32 >>> s)
    (orAt (decide (k + 1 ≤ i ∧ s ≠ 0)) (i - k - 1) (a.getD i 0#32 <<< (32 - s)) pn)

/-- `operator>>=`. -/
def shiftRight (a : List Limb) (shift : ℕ) : List Limb :=
  (List.range a.length).foldl (shiftRightStep a (shift / 32) (shift % 32))
    (List.replicate a.length 0#32)

/-- The limb-wise comparison, most significant limb first. -/
def compareLoop : List Limb → List Limb → Ordering
  | x :: xs, y :: ys => if x < y then .lt else if y < x then .gt else compareLoop xs ys
  | _, _ => .eq

def compareTo (a b : List Limb) : Ordering := compareLoop a.reverse b.reverse

/-- The inner loop of `bits()`: the highest set bit of a nonzero limb, plus one. -/
def limbBits (x : Limb) : ℕ → ℕ
  | 0 => 1
  | nbits + 1 => if x.getLsbD (nbits + 1) then nbits + 2 else limbBits x nbits

/-- The outer loop of `bits()`, most significant limb first. -/
def bitsLoop : List Limb → ℕ
  | [] => 0
  | x :: xs => if x ≠ 0 then 32 * xs.length + limbBits x 31 else bitsLoop xs

/-- `bits()`: the position of the highest bit set plus one, or zero. -/
def bits (a : List Limb) : ℕ := bitsLoop a.reverse

/-- The shift-subtract loop of `operator/=`, `shift + 1` passes left. -/
def divLoop : ℕ → List Limb → List Limb → List Limb → List Limb
  | 0, _, _, quot => quot
  | shift + 1, num, div, quot =>
    if compareTo num div ≠ .lt then
      divLoop shift (sub num div) (shiftRight div 1)
        (orAt true (shift / 32) (1#32 <<< (shift % 32)) quot)
    else divLoop shift num (shiftRight div 1) quot

/-- `operator/=`. -/
def div (num b : List Limb) : Except UintError (List Limb) :=
  let num_bits := bits num
  let div_bits := bits b
  if div_bits = 0 then .error .divisionByZero
  else if div_bits > num_bits then .ok (List.replicate num.length 0#32)
  else
    let shift := num_bits - div_bits
    .ok (divLoop (shift + 1) num (shiftLeft b shift) (List.replicate num.length 0#32))

def getLow64 (a : List Limb) : BitVec 64 :=
  (a.getD 0 0#32).setWidth 64 ||| ((a.getD 1 0#32).setWidth 64 <<< 32)

/-! ## Every loop keeps the width -/

variable (a : List Limb)

@[simp] theorem inc_length : (inc a).length = a.length := by
  induction a with
  | nil => rfl
  | cons x xs ih =>
    unfold inc
    split <;> simp [ih]

@[simp] theorem neg_length : (neg a).length = a.length := by
  simp [neg, compl]

@[simp] theorem add_length (a b : List Limb) (h : a.length = b.length) :
    (add a b).length = a.length := by
  simp [add, h]

@[simp] theorem sub_length (a b : List Limb) (h : a.length = b.length) :
    (sub a b).length = a.length := by
  simp [sub, h]

theorem foldl_length {α β : Type} (f : List α → β → List α)
    (hf : ∀ l b, (f l b).length = l.length) (bs : List β) (l : List α) :
    (bs.foldl f l).length = l.length := by
  induction bs generalizing l with
  | nil => rfl
  | cons b bs ih => rw [List.foldl_cons, ih, hf]

@[simp] theorem mul_length (x b : List Limb) : (mul x b).length = x.length := by
  unfold mul
  rw [foldl_length, List.length_replicate]
  intro l j
  simp only [List.length_append, List.length_take,
    BitMinti.Computation.Limbs.mulRow_length, List.length_drop]
  omega

@[simp] theorem shiftLeftStep_length (k s : ℕ) (pn : List Limb) (i : ℕ) :
    (shiftLeftStep a k s pn i).length = pn.length := by
  simp [shiftLeftStep]

@[simp] theorem shiftLeft_length (n : ℕ) : (shiftLeft a n).length = a.length := by
  unfold shiftLeft
  rw [foldl_length _ (fun l i => shiftLeftStep_length a _ _ l i), List.length_replicate]

@[simp] theorem shiftRightStep_length (k s : ℕ) (pn : List Limb) (i : ℕ) :
    (shiftRightStep a k s pn i).length = pn.length := by
  simp [shiftRightStep]

@[simp] theorem shiftRight_length (n : ℕ) : (shiftRight a n).length = a.length := by
  unfold shiftRight
  rw [foldl_length _ (fun l i => shiftRightStep_length a _ _ l i), List.length_replicate]

@[simp] theorem divLoop_length (n : ℕ) (num dv quot : List Limb) :
    (divLoop n num dv quot).length = quot.length := by
  induction n generalizing num dv quot with
  | zero => rfl
  | succ n ih =>
    unfold divLoop
    split <;> simp [ih]

theorem div_length {num b q : List Limb} (h : div num b = .ok q) : q.length = num.length := by
  simp only [div] at h
  split at h
  · cases h
  · split at h <;> cases h <;> simp

end BaseUint

namespace ArithUint256

/-! ## The operators of `arith_uint256` -/

instance : Add ArithUint256 :=
  ⟨fun a b => ⟨BaseUint.add a.pn b.pn, by
    rw [BaseUint.add_length _ _ (a.length_pn.trans b.length_pn.symm), a.length_pn]⟩⟩

instance : Sub ArithUint256 :=
  ⟨fun a b => ⟨BaseUint.sub a.pn b.pn, by
    rw [BaseUint.sub_length _ _ (a.length_pn.trans b.length_pn.symm), a.length_pn]⟩⟩

instance : Mul ArithUint256 :=
  ⟨fun a b => ⟨BaseUint.mul a.pn b.pn, by rw [BaseUint.mul_length, a.length_pn]⟩⟩

/-- `operator~`. -/
def compl (a : ArithUint256) : ArithUint256 :=
  ⟨BaseUint.compl a.pn, by rw [BaseUint.compl, List.length_map, a.length_pn]⟩

/-- `EqualTo(0)`: every limb is zero. -/
def isZero (a : ArithUint256) : Bool := a.pn.all (· == 0#32)

/-- `operator<<`. -/
def shiftLeft (a : ArithUint256) (n : ℕ) : ArithUint256 :=
  ⟨BaseUint.shiftLeft a.pn n, by rw [BaseUint.shiftLeft_length, a.length_pn]⟩

/-- `operator>>`. -/
def shiftRight (a : ArithUint256) (n : ℕ) : ArithUint256 :=
  ⟨BaseUint.shiftRight a.pn n, by rw [BaseUint.shiftRight_length, a.length_pn]⟩

/-- `operator/`, throwing on a zero divisor. -/
def div (a b : ArithUint256) : Except UintError ArithUint256 :=
  match h : BaseUint.div a.pn b.pn with
  | .error e => .error e
  | .ok q => .ok ⟨q, by rw [BaseUint.div_length h, a.length_pn]⟩

/-- `operator<=>` through `CompareTo`. -/
def compare (a b : ArithUint256) : Ordering := BaseUint.compareTo a.pn b.pn

/-- `operator<`. -/
def blt (a b : ArithUint256) : Bool := a.compare b == .lt

/-- `base_uint(uint64_t)`. -/
def ofUInt64 (b : BitVec 64) : ArithUint256 :=
  ⟨low b :: low (b >>> 32) :: List.replicate 6 0#32, by simp [WIDTH]⟩

/-- `UintToArith256`: limb `x` is the four bytes of the blob from `4 * x` on. -/
def ofUint256 (a : Uint256) : ArithUint256 :=
  ⟨(List.range WIDTH).map fun x => (a >>> (32 * x)).setWidth 32, by simp⟩

/-- `SetCompact`: the decoded number with the negative and the overflow flag. -/
def setCompact (nCompact : BitVec 32) : ArithUint256 × Bool × Bool :=
  let nSize := (nCompact >>> 24).toNat
  let nWord := nCompact &&& 0x007fffff#32
  -- the short form shifts nWord itself, and the flags below read the shifted word
  let nWord := if nSize ≤ 3 then nWord >>> (8 * (3 - nSize)) else nWord
  let target := if nSize ≤ 3 then ofUInt64 (nWord.setWidth 64)
    else shiftLeft (ofUInt64 (nWord.setWidth 64)) (8 * (nSize - 3))
  let fNegative := nWord != 0#32 && (nCompact &&& 0x00800000#32) != 0#32
  let fOverflow := nWord != 0#32 && (decide (nSize > 34) ||
    (decide (nWord > 0xff#32) && decide (nSize > 33)) ||
    (decide (nWord > 0xffff#32) && decide (nSize > 32)))
  (target, fNegative, fOverflow)

/-- `GetCompact` with `fNegative = false`. -/
def getCompact (a : ArithUint256) : BitVec 32 :=
  let nSize := (BaseUint.bits a.pn + 7) / 8
  let nCompact : BitVec 32 :=
    if nSize ≤ 3 then (BaseUint.getLow64 a.pn <<< (8 * (3 - nSize))).setWidth 32
    else (BaseUint.getLow64 (a.shiftRight (8 * (nSize - 3))).pn).setWidth 32
  -- the mantissa's sign bit must stay clear, so a full mantissa moves down one byte
  if nCompact &&& 0x00800000#32 != 0#32 then
    (nCompact >>> 8) ||| (BitVec.ofNat 32 (nSize + 1) <<< 24)
  else nCompact ||| (BitVec.ofNat 32 nSize <<< 24)

end ArithUint256

end BitMinti.Model
