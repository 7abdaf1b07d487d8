import Btlib.Source.Records

namespace Btlib

variable [Build]

def setRoot (blk : Int) : BT Unit := setSuper fun p => { p with scroot := blk }

def setRootName (name : Key) : BT Unit := setSuper fun p => { p with scclas := keycpy name }

def smodUp : BT Unit := setSuper fun p => { p with smod := p.smod + 1 }

-- The allocator refuses with `ZNULL`, not with the 0 tested for here.
def btcrtrBlock (root : Key) : BT Unit := do
  let blk ← bgtfre
  if blk ≠ 0 then
    let status ← bupdky (some root) blk
    if status = 0 then
      bsetbk blk ZROOT 0 ZNULL 0 blk ZNULL
      setRoot blk
      setRootName root
      bsetbs blk true

def btcrtr (root : Key) : BT Int :=
  api "BTCRTR" id <| errOf <| locked "BTCRTR" () do
    let svblk := (← get).super.scroot
    bsetbs svblk false
    setRoot ZSUPER
    bsetbs ZSUPER true
    let status ← binsky root ZNULL
    smodUp
    bsetbs ZSUPER false
    bclrlf
    if status = 0 then btcrtrBlock root
    else
      setRoot svblk
      bsetbs svblk true

def btchgr (root : Key) : BT Int :=
  api "BTCHGR" id <| errOf <| locked "BTCHGR" () do
    let svblk := (← get).super.scroot
    if 0 ≤ svblk then bsetbs svblk false
    setRoot ZSUPER
    bsetbs ZSUPER true
    let r ← bfndky root
    bsetbs ZSUPER false
    bclrlf
    if r.1 = 0 then
      let type ← bgtinf r.2 .ZBTYPE
      if type ≠ ZROOT then bterr "BTCHGR" QBLKNR (.num r.2)
      else
        setRoot r.2
        setRootName root
        bsetbs r.2 true
    else
      setRoot svblk
      if svblk ≠ ZNULL then bsetbs svblk true

def bnxtbkLoop : Nat → (blk : Int) → BT Int
  | 0, _ => hang
  | n + 1, blk => do
      let lf := (← get).lf
      if 0 ≤ lf.lfblk then
        match ← brdblk lf.lfblk with
        | none =>
            bterr "BNXTBK" QRDBLK (.num lf.lfblk)
            pure blk
        | some _ =>
            let nkeys ← bgtinf lf.lfblk .ZNKEYS
            if nkeys < lf.lfpos then
              pullParent
              setPos (· + 1)
              pure lf.lfblk
            else
              let _ ← bleaf 0
              let lf := (← get).lf
              let nkeys ← bgtinf lf.lfblk .ZNKEYS
              setPos fun _ => nkeys + 2
              bnxtbkLoop n blk
      else pure blk

def bnxtbkStart : BT Unit := do
  bstkin
  bpush (-1)
  bpush (-1)
  let root := (← get).super.scroot
  setLf fun lf => { lf with lfblk := root, lfpos := 0 }
  let _ ← bleaf 0

-- `bnxtbk`: the new value of `*blk`.
def bnxtbk (blk : Int) : BT Int := do
  if blk = ZNULL then bnxtbkStart
  bnxtbkLoop FUEL blk

def freeDataLoop : Nat → (blk : Int) → BT Unit
  | 0, _ => hang
  | n + 1, blk => do
      if blk = ZNULL then pure ()
      else
        let next ← bgtinf blk .ZNXBLK
        bmkfre blk
        freeDataLoop n next

def freeIndexLoop : Nat → (blk : Int) → BT Unit
  | 0, _ => hang
  | n + 1, blk => do
      let root := (← get).super.scroot
      if blk = root then pure ()
      else
        bmkfre blk
        let blk ← bnxtbk blk
        freeIndexLoop n blk

-- What `btdelr` does once the name is gone: the blocks of the root `blk` are freed.
def freeRoot (blk : Int) : BT Unit := do
  bclrlf
  smodUp
  bsetbs ZSUPER false
  setRoot blk
  bsetbs blk true
  let head ← bgtinf blk .ZNXBLK
  freeDataLoop FUEL head
  let first ← bnxtbk ZNULL
  freeIndexLoop FUEL first
  bsetbs blk false
  bmkfre blk

-- Makes the superroot current and looks the name up: the root left, and what `bfndky` says.
def btdelrFind (root : Key) : BT (Int × Int × Int) := do
  let svblk := (← get).super.scroot
  if 0 ≤ svblk then bsetbs svblk false
  setRoot ZSUPER
  bsetbs ZSUPER true
  let r ← bfndky root
  return (svblk, r)

-- What `btdelr` does with the name: the value of `status` then.
def btdelrName (root : Key) (svblk : Int) (r : Int × Int) : BT Int := do
  if r.1 ≠ 0 then return r.1
  else if r.2 = svblk ∨ r.2 = ZSUPER then
    bsetbs ZSUPER false
    bterr "BTDELR" QDELCR .none
    return 0
  else
    let status ← bdelky (some root)
    if status = 0 then freeRoot r.2
    return status

-- The superroot stays busy where the name was not found or not deleted.
def btdelr (root : Key) : BT Int :=
  api "BTDELR" id <| errOf <| locked "BTDELR" () do
    let f ← btdelrFind root
    let _ ← btdelrName root f.1 f.2
    setRoot f.1
    if 0 ≤ f.1 then bsetbs f.1 true

def btdups (dups : Int) : BT Int :=
  api "BTDUPS" id <| errOf do
    let c ← get
    if c.super.scroot = ZSUPER then bterr "BTDUPS" QNODUPS .none
    else
      let ok ← enter "BTDUPS"
      if ok then
        bstinf c.super.scroot .ZMISC dups
        leave

def btlock : BT Int :=
  api "BTLOCK" id <| errOf do
    let c ← get
    if c.shared then
      let ok ← block
      if ok then bclrlf else bterr "BTLOCK" QBUSY .none

def btunlock : BT Int := api "BTUNLOCK" id <| errOf leave

def btthresh (n : Int) : BT Int :=
  api "BTTHRESH" id do
    modify fun c => { c with wt_threshold := n }
    pure 0

end Btlib
