import Btlib.Source.Walk

namespace Btlib

variable [Build]

def context_ok (fn : String) : BT Bool := do
  let lf := (← get).lf
  if lf.lfblk = ZNULL ∨ lf.lfpos = ZNULL ∨ ¬ lf.lfexct then
    bterr fn QBADCTXT .none
    pure false
  else pure true

-- `setup` without a key: the record of the last found position.
def setupCurrent (fn : String) : BT Int := do
  let c ← get
  if 0 < c.lckcnt then
    let ok ← context_ok fn
    if ok then
      if c.shared then
        let _ ← block
      let r ← bsrhlf
      if r.result ≠ 0 then bterr fn QBADCTXT .none
      pure r.val
    else pure 0
  else
    bterr fn QNOTOP .none
    pure 0

def setupNamed (fn : String) (key : Key) : BT Int :=
  within fn 0 do
    let r ← bfndky key
    let type ← bgtinf (cnvdraddr r.2).1 .ZBTYPE
    if type ≠ ZDATA then bterr fn QNOTDA .none
    pure r.2

-- `setup`: its code and `*draddr`.
def setup (fn : String) (key : Option Key) : BT (Int × Int) :=
  withErr do
    let ok ← dataok
    if ¬ ok then
      bterr fn QDAERR .none
      pure 0
    else
      match key with
      | none => setupCurrent fn
      | some key => setupNamed fn key

def btinsPut (key : Key) (data : List Byte) : BT Unit := do
  let draddr ← binsdt ZDATA data
  if draddr ≠ ZNULL then
    if draddr < 0 then bterr "BTINS" QDRANEG (.num draddr)
    else
      let status ← binsky key draddr
      if status ≠ 0 then
        bterr0
        bterr "BTINS" status (.key key)
        let _ ← bdeldt draddr

-- The superroot is told apart before the lock is taken, and unlocked all the same.
def btins (key : Key) (data : List Byte) (dsize : Int) : BT Int :=
  api "BTINS" id <| errOf do
    let ok ← dataok
    if ¬ ok then bterr "BTINS" QDAERR .none
    else
      within "BTINS" () do
        let c ← get
        if c.super.smode ≠ 0 then bterr "BTINS" QNOWRT .none
        else if 0 ≤ dsize then btinsPut key (slice data 0 dsize.toNat)
        else bterr "BTINS" QDNEG .none
    leave

def btupd (key : Option Key) (data : List Byte) (dsize : Int) : BT Int :=
  api "BTUPD" id do
    if dsize < 0 then
      bterr "BTUPD" QDNEG .none
      pure QDNEG
    else
      let ok ← dataok
      let c ← get
      if ¬ ok then bterr "BTUPD" QDAERR .none
      else if c.super.smode ≠ 0 then bterr "BTINS" QNOWRT .none
      else
        let r ← setup "BTUPD" key
        if r.1 = 0 then
          let _ ← bupddt r.2 (slice data 0 dsize.toNat)
        leave
      btgerr

def btselGet (key : Key) (dsize : Int) : BT (Int × List Byte) := do
  let r ← bfndky key
  if r.1 ≠ 0 then pure (0, [])
  else if r.2 < 0 then
    bterr "BTSEL" QDRANEG (.num r.2)
    pure (0, [])
  else bseldt r.2 dsize

-- `btsel`: its code, `*rsize` and the bytes handed back.
def btsel (key : Key) (dsize : Int) : BT (Int × Int × List Byte) :=
  api "BTSEL" (·, 0, []) <| withErr do
    let ok ← dataok
    let data ←
      if ¬ ok then
        bterr "BTSEL" QDAERR .none
        pure (0, [])
      else within "BTSEL" (0, []) (btselGet key dsize)
    leave
    pure data

def btdelRecord (draddr : Int) : BT Unit := do
  let status ← bdeldt draddr
  if status = 0 then
    let _ ← bdelky none

-- Only a successful `setup` is followed by the unlock.
def btdel (key : Option Key) : BT Int :=
  api "BTDEL" id <| errOf do
    let c ← get
    if c.super.smode ≠ 0 then bterr "BTINS" QNOWRT .none
    else
      let r ← setup "BTDEL" key
      if r.1 = 0 then
        btdelRecord r.2
        leave

-- The body `btseln` and `btselp` share. Both take the lock on an exclusive handle too.
def btselWalk (fn : String) (step : BT (Int × Option (Key × Int))) (dsize : Int) :
    BT (Option (Key × Int × List Byte)) := do
  let ok ← dataok
  if ¬ ok then
    bterr fn QDAERR .none
    pure none
  else
    let ok ← block
    if ¬ ok then
      bterr "BTSELN" QBUSY .none
      pure none
    else
      match ← step with
      | (0, some r) =>
          let data ← bseldt r.2 dsize
          pure (some (r.1, data))
      | _ => pure none

-- `btseln`: its code, and the key, `*rsize` and the bytes when there are any.
def btseln (dsize : Int) : BT (Int × Option (Key × Int × List Byte)) :=
  api "BTSELN" (·, none) <| withErr do
    let r ← btselWalk "BTSELN" bnxtky dsize
    leave
    pure r

def btselp (dsize : Int) : BT (Int × Option (Key × Int × List Byte)) :=
  api "BTSELP" (·, none) <| withErr do
    let r ← btselWalk "BTSELP" bprvky dsize
    bulock
    pure r

-- `btrecs`: its code and `*rsize`.
def btrecs (key : Option Key) : BT (Int × Int) :=
  api "BTRECS" (·, 0) <| withErr do
    let c ← get
    if c.super.smode ≠ 0 then
      bterr "BTINS" QNOWRT .none
      pure 0
    else
      let r ← setup "BTRECS" key
      if r.1 = 0 then
        let rsize ← brecsz r.2
        leave
        pure rsize
      else pure 0

end Btlib
