import BitMinti.Model.BlockIndex

/-!
# The last common ancestor of two blocks

SOURCE: src/src/chain.cpp:155-178
-/

set_option autoImplicit false

namespace BitMinti.Model

/-- The loop of `LastCommonAncestor`: both blocks go to their skip ancestors while these
differ, and to their parents where they agree. -/
def lastCommonAncestorLoop (m : BlockMap) (fuel : ℕ) (pa pb : CBlockIndex) : Option CBlockIndex :=
  if pa.phashBlock = pb.phashBlock then some pa
  else
    match fuel with
    | 0 => none
    | fuel + 1 =>
      if pa.pskip ≠ pb.pskip then
        match pa.pskip.bind m, pb.pskip.bind m with
        | some pa, some pb => lastCommonAncestorLoop m fuel pa pb
        | _, _ => none
      else
        match m.pprev pa, m.pprev pb with
        | some pa, some pb => lastCommonAncestorLoop m fuel pa pb
        | _, _ => none

/-- `LastCommonAncestor`.  It yields no block where the code would follow a null pointer. -/
def lastCommonAncestor (m : BlockMap) (pa pb : CBlockIndex) : Option CBlockIndex :=
  let pa' := if pa.nHeight > pb.nHeight then getAncestor m pa pb.nHeight else some pa
  let pb' := if pb.nHeight > pa.nHeight then getAncestor m pb pa.nHeight else some pb
  match pa', pb' with
  | some pa, some pb => lastCommonAncestorLoop m pa.nHeight pa pb
  | _, _ => none

end BitMinti.Model
