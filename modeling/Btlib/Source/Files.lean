import Btlib.Source.Roots

namespace Btlib

variable [Build]

def setOpen (isopen : Bool) : BT Unit := modify fun c => { c with isopen := isopen }

def setShared (shared : Bool) : BT Unit := modify fun c => { c with shared := shared }

-- Memory for the context is there whenever it is asked for.
def bacini : BT Unit := do
  modify fun c => { c with isopen := true, lckcnt := 0 }
  ask .initcntrl
  bclrlf

def bacfre : BT Unit := setOpen false

-- What `btcrt` writes into the slot of the superroot by hand.
def superKeys (b : Block) : Block :=
  ((((b.setKey 1 ⟨key "$$super", ZSUPER, ZNULL⟩).setKey 0 ⟨key "$$default", DEFAULT_ROOT, ZNULL⟩).setLnk
    0 ZNULL).setLnk 1 ZNULL).setLnk 2 ZNULL

-- All blocks of the free list are made in one slot, which is labelled anew for each of them.
def freeListLoop : Nat → (i : Int) → BT Unit
  | 0, _ => pure ()
  | n + 1, i => do
      if i = 2 then ask (.label i) else ask (.relabel i)
      bmkfre i
      setSuper fun p => { p with sblkmx := p.sblkmx + 1 }
      freeListLoop n (i + 1)

def btcrtFail : BT Int := do
  leave
  let _ ← ask .fclose
  bacfre
  btgerr

def btcrtDefault (nkeys : Int) : BT Int := do
  ask (.label DEFAULT_ROOT)
  setRoot DEFAULT_ROOT
  setRootName (key "$$default")
  bsetbk DEFAULT_ROOT ZROOT 0 ZNULL 0 DEFAULT_ROOT ZNULL
  let ok ← bwrblk DEFAULT_ROOT
  if ¬ ok then
    bterr "BTCRT" QWRBLK (.num 1)
    btcrtFail
  else
    match ← brdblk DEFAULT_ROOT with
    | none =>
        bterr "BTCRT" QRDBLK (.num 1)
        btcrtFail
    | some _ =>
        bsetbs DEFAULT_ROOT true
        if nkeys ≠ 0 then freeListLoop (nkeys.tdiv ZMXKEY - 2).toNat 2
        leave
        btgerr

def btcrtSuper (nkeys : Int) : BT Int := do
  setSuper fun p => { p with sblkmx := 2, snfree := 0, sfreep := ZNULL, smod := 1, smode := 0 }
  ask (.label ZSUPER)
  let p := (← get).super
  bsetbk ZSUPER ZROOT p.snfree p.sfreep 2 p.sblkmx ZNULL
  match ← brdblk ZSUPER with
  | none => pure ()
  | some b => wr ZSUPER (superKeys b) 0
  let ok ← bwrblk ZSUPER
  if ¬ ok then
    bterr "BTCRT" QWRSUP (.num ZSUPER)
    btcrtFail
  else btcrtDefault nkeys

-- `btcrt`: 0 when it returns a handle.
def btcrt (nkeys : Int) (shared : Bool) : BT Int := do
  bterr0
  let ok ← ask .creat
  if ¬ ok then
    bterr "BTCRT" QCRTIO .none
    btgerr
  else
    setShared shared
    bacini
    setRoot ZNULL
    let ok ← block
    if ¬ ok then
      bterr "BTCRT" QBUSY .none
      bacfre
      btgerr
    else btcrtSuper nkeys

def btopnFail : BT Int := do
  leave
  bacfre
  btgerr

-- `btopn`: 0 when it returns a handle.
def btopn (mode : Int) (shared : Bool) : BT Int := do
  bterr0
  let ok ← ask .fopen
  if ¬ ok then
    bterr "BTOPN" QOPNIO .none
    btgerr
  else
    bacini
    setShared shared
    setSuper fun p => { p with smod := 0, scroot := 0 }
    let ok ← block
    if ¬ ok then
      bterr "BTOPN" QBUSY .none
      btopnFail
    else if (← brdsup) ≠ 0 then btopnFail
    else if (← btchgr (key "$$default")) ≠ 0 then btopnFail
    else
      setSuper fun p => { p with smode := mode }
      if (← btgerr) ≠ 0 then btopnFail
      else
        leave
        btgerr

def bulockLoop : Nat → BT Unit
  | 0 => hang
  | n + 1 => do
      if 0 < (← get).lckcnt then
        bulock
        bulockLoop n

def btcls : BT Int :=
  api "BTCLS" id do
    bulockLoop FUEL
    let ok ← ask .fclose
    if ¬ ok then bterr "BTCLS" QCLSIO .none
    else bacfre
    btgerr

section Debug

def btcntdups : Nat → (draddr count : Int) → BT Int
  | 0, _, _ => hang
  | n + 1, draddr, count => do
      if draddr = ZNULL then return count
      else
        match ← getdkey draddr with
        | none => hang
        | some dkey => btcntdups n dkey.flink (count + 1)

def btcntkeysLoop (blk : Int) : Nat → (i tcnt : Int) → BT Int
  | 0, _, tcnt => return tcnt
  | n + 1, i, tcnt => do
      match ← getkeyent blk i with
      | none => return ZNULL
      | some ke =>
          let kcnt ← if ke.dup ≠ ZNULL then btcntdups FUEL ke.val 0 else pure 1
          btcntkeysLoop blk n (i + 1) (tcnt + kcnt)

def btcntkeys (blk : Int) : BT Int := do
  let nkeys ← bgtinf blk .ZNKEYS
  btcntkeysLoop blk nkeys.toNat 0 0

-- What the walk of `btkeys` has found so far.
structure Keys where
  tnkeys : Int := 0
  empty_blk : Int := ZNULL
  leaf_depth : Int := -1
  balanced : Bool := true
  link1 : Int := 0

def btkeysBlock (blkno depth : Int) (r : Keys) : BT (Option Keys) := do
  let _ ← brdblk blkno
  let nkeys ← bgtinf blkno .ZNKEYS
  if nkeys = 0 ∧ r.empty_blk = ZNULL then
    let type ← bgtinf blkno .ZBTYPE
    return some (if type ≠ ZROOT then { r with empty_blk := blkno } else r)
  else
    -- at an empty block `link1` is that of the block before
    let o ← bsrhbk blkno { link1 := r.link1 }
    let r := { r with link1 := o.link1 }
    let r :=
      if o.link1 ≠ ZNULL then r
      else if r.leaf_depth < 0 then { r with leaf_depth := depth }
      else if r.leaf_depth ≠ depth then
        { r with balanced := false, leaf_depth := max r.leaf_depth depth }
      else r
    let nkeys ← btcntkeys blkno
    return if nkeys = ZNULL then none else some { r with tnkeys := r.tnkeys + nkeys }

def btkeysLoop : Nat → (blkno : Int) → Keys → BT Int
  | 0, _, _ => hang
  | n + 1, blkno, r => do
      let blkno ← bnxtbk blkno
      let depth : Int := ((← get).stk.length : Int) / 2
      match ← btkeysBlock blkno depth r with
      | none => return 0
      | some r =>
          if blkno ≠ (← get).super.scroot then btkeysLoop n blkno r
          else return if r.empty_blk ≠ ZNULL ∨ ¬ r.balanced then ZNULL else r.tnkeys

-- `btkeys`, which takes the lock of a shared handle and keeps it.
def btkeys : BT Int :=
  api "BTKEYS" id do
    let ok ← enter "BTKEYS"
    if ok then btkeysLoop FUEL ZNULL {} else return 0

inductive Debug where
  | super | control | stats | space | block | stack | struct | other
deriving DecidableEq, Repr

def spaceLoop : Nat → (blkno : Int) → BT Unit
  | 0, _ => hang
  | n + 1, blkno => do
      let blkno ← bnxtbk blkno
      let _ ← brdblk blkno
      if blkno ≠ (← get).super.scroot then spaceLoop n blkno

def btdispdupsLoop : Nat → (draddr mx : Int) → BT Unit
  | 0, _, _ => hang
  | n + 1, draddr, mx => do
      if draddr < mx then
        match ← getdkey draddr with
        | none => pure ()
        | some _ => btdispdupsLoop n (draddr + (sizeofDKey + ZDOVRH : Nat)) mx

def btdispdups (blk : Int) : BT Unit := do
  let type ← bgtinf blk .ZBTYPE
  if type = ZDUP then
    let nkeys ← bgtinf blk .ZNKEYS
    btdispdupsLoop FUEL (mkdraddr blk 0) (mkdraddr blk nkeys)

def debugBlock (blkno : Int) : BT Unit := do
  match ← brdblk blkno with
  | none => bterr "BDBUG" QRDBLK (.num blkno)
  | some _ =>
      let _ ← bgtinf blkno .ZNXDUP
      let _ ← bgtinf blkno .ZNBLKS
      let _ ← bgtinf blkno .ZNKEYS
      let _ ← bgtinf blkno .ZNXBLK
      let _ ← bgtinf blkno .ZMISC
      let _ ← bgtinf blkno .ZBTYPE
      let type ← bgtinf blkno .ZBTYPE
      if type = ZDUP then btdispdups blkno

-- What `bdbug` does with the lock it has taken, less the printing.
def bdbugBody (cmd : Debug) (blkno : Int) : BT Unit :=
  match cmd with
  | .super | .control | .stats | .stack => pure ()
  | .space => spaceLoop FUEL ZNULL
  | .block => debugBlock blkno
  | .struct => do
      let _ ← btkeys
  | .other => bterr "BDBUG" QBADOP .none

end Debug

end Btlib
