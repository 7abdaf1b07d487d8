import Btlib.Source.Keys

namespace Btlib

variable [Build]

abbrev ZSTART : Int := 1
abbrev ZEND : Int := 2

-- What `bnxtky` and `bprvky` hand back once they stand on a key: the key and `*val`.
def takeKey (b : Block) (direction : Int) : BT (Key × Int) := do
  let ke := b.keyblk (← get).lf.lfpos
  setLf fun lf => { lf with lfkey := keycpy ke.key }
  let r ← btduppos direction ke.val
  return (keycpy ke.key, r.2)

-- One key on, when the position is exact; the block of the position then.
def bnxtkyStep (b : Block) : BT (Option Block) := do
  let lf := (← get).lf
  if ¬ lf.lfexct then
    setLf fun lf => { lf with lfexct := true }
    pure (some b)
  else
    setLf fun lf => { lf with lfpos := lf.lfpos + 1, draddr := ZNULL }
    bleaf 0

def bnxtkyLoop : Nat → BT (Option (Key × Int))
  | 0 => hang
  | n + 1 => do
      let lf := (← get).lf
      if lf.lfblk = ZNULL then pure none
      else
        match ← brdblk lf.lfblk with
        | none =>
            bterr "BNXTKY" QRDBLK (.num lf.lfblk)
            pure none
        | some b =>
            let nkeys ← bgtinf lf.lfblk .ZNKEYS
            if nkeys ≤ lf.lfpos ∨ nkeys = 0 then
              pullParent
              setLf fun lf => { lf with lfexct := false }
              bnxtkyLoop n
            else
              match ← bnxtkyStep b with
              | none => bnxtkyLoop n
              | some b =>
                  let lf := (← get).lf
                  if lf.lfpos < nkeys then
                    let r ← takeKey b ZNEXT
                    pure (some r)
                  else bnxtkyLoop n

-- A shared handle finds its last key again, as others may have moved it; whether it is still there
-- does not matter.
def refind : BT Unit := do
  let c ← get
  if c.shared ∧ c.lf.lfblk ≠ ZNULL then
    let _ ← bfndky c.lf.lfkey
    bterr0

-- A walk: first along the duplicates of the current key, then by `move`.
def walk (direction : Int) (move : BT (Option (Key × Int))) : BT (Option (Key × Int)) := do
  let found ← btduppos direction 0
  if 0 < found.1 then pure none
  else if found.1 = 0 then
    let lf := (← get).lf
    pure (some (keycpy lf.lfkey, found.2))
  else
    refind
    move

-- `bnxtky`: its code, and the key and `*val` when there are any.
def bnxtky : BT (Int × Option (Key × Int)) :=
  api "BNXTKY" (·, none) <| withErr <| locked "BNXTKY" none <| walk ZNEXT do
    let r ← bnxtkyLoop FUEL
    let lf := (← get).lf
    if lf.lfblk = ZNULL then
      bclrlf
      bterr "BNXTKY" QNOKEY .none
    pure r

-- One key back; `lfexct` counts for nothing in a leaf.
def bprvkyStep (nkeys : Int) (b : Block) : BT (Option Block) := do
  let lf := (← get).lf
  if lf.lfpos = nkeys then
    setLf fun lf => { lf with lfpos := lf.lfpos - 1, lfexct := true, draddr := ZNULL }
    pure (some b)
  else if lf.lfexct then
    match ← bleaf 1 with
    | none => pure none
    | some b =>
        setLf fun lf => { lf with lfpos := lf.lfpos - 1, draddr := ZNULL }
        pure (some b)
  else if b.lnkblk lf.lfpos = ZNULL then
    setLf fun lf => { lf with lfpos := lf.lfpos - 1, lfexct := true, draddr := ZNULL }
    pure (some b)
  else
    setLf fun lf => { lf with lfexct := true }
    pure (some b)

def bprvkyLoop : Nat → BT (Option (Key × Int))
  | 0 => hang
  | n + 1 => do
      let lf := (← get).lf
      if lf.lfblk = ZNULL then pure none
      else
        match ← brdblk lf.lfblk with
        | none =>
            bterr "BPRVKY" QRDBLK (.num lf.lfblk)
            pure none
        | some b =>
            let nkeys ← bgtinf lf.lfblk .ZNKEYS
            if lf.lfpos < 0 ∨ nkeys = 0 then
              pullParent
              setLf fun lf => { lf with lfpos := lf.lfpos - 1, lfexct := false, draddr := ZNULL }
              bprvkyLoop n
            else
              match ← bprvkyStep nkeys b with
              | none => bprvkyLoop n
              | some b =>
                  let lf := (← get).lf
                  if 0 ≤ lf.lfpos then
                    let r ← takeKey b ZPREV
                    pure (some r)
                  else bprvkyLoop n

def bprvky : BT (Int × Option (Key × Int)) :=
  api "BPRVKY" (·, none) <| withErr <| locked "BPRVKY" none <| walk ZPREV do
    let r ← bprvkyLoop FUEL
    let lf := (← get).lf
    if lf.lfblk = ZNULL then bterr "BPRVKY" QNOKEY .none
    pure r

-- `key[strlen(key)-1]++`; the byte before an empty key is outside the buffer.
def bumpLast (k : Key) : Key :=
  match k.getLast? with
  | none => k
  | some b => k.dropLast ++ (if b.val + 1 < 256 then [Fin.ofNat 256 (b.val + 1)] else [])

def btposEnd : BT Unit := do
  let _ ← bleaf 1
  let lf := (← get).lf
  let r ← bsrhbk lf.lfblk { loc := lf.lfpos - 1 }
  if r.result < 0 then bterr "BTPOS" QPOSERR (.num lf.lfblk)
  else setLf fun lf => { lf with lfkey := keycpy (bumpLast r.key) }

-- The early return on an empty root leaves the lock with the caller.
def btposAt (pos : Int) : BT Int := do
  bclrlf
  bstkin
  bpush ZNULL
  bpush ZNULL
  let root := (← get).super.scroot
  setLf fun lf => { lf with lfblk := root }
  if pos = ZSTART then
    setLf fun lf => { lf with lfkey := [], lfpos := 0 }
    let _ ← bleaf 0
    leave
    btgerr
  else if pos = ZEND then
    let nkeys ← bgtinf root .ZNKEYS
    setLf fun lf => { lf with lfpos := nkeys }
    if nkeys = 0 then pure 0
    else
      btposEnd
      leave
      btgerr
  else
    leave
    btgerr

def btpos (pos : Int) : BT Int :=
  api "BTPOS" id do
    let ok ← enter "BTPOS"
    if ok then btposAt pos else btgerr

end Btlib
