import Btlib.Source.Data

namespace Btlib

variable [Build]

abbrev ZPREV : Int := 1
abbrev ZNEXT : Int := 2

def getkeyent (blk pos : Int) : BT (Option KeyEnt) := do
  match ← brdblk blk with
  | none =>
      bterr "GETKEYENT" QRDBLK (.num blk)
      return none
  | some b => return some (b.keyblk pos)

def putkeyent (blk pos : Int) (ke : KeyEnt) : BT Int := do
  match ← brdblk blk with
  | none =>
      bterr "PUTKEYENT" QRDBLK (.num blk)
      return QRDBLK
  | some b =>
      wr blk (b.setKey pos ke) 1
      return 0

def getdkey (draddr : Int) : BT (Option DKey) := do
  let a := cnvdraddr draddr
  if (← bgtinf a.1 .ZBTYPE) ≠ ZDUP then
    bterr "GETDKEY" QNOTDUP (.num draddr)
    return none
  else
    let r ← bseldt draddr sizeofDKey
    if r.1 = sizeofDKey then return some (DKey.ofBytes r.2)
    else
      bterr "GETDKEY" QDUPSZ .none
      return none

def putdkey (draddr : Int) (dkey : DKey) : BT Int := do
  let _ ← bupddt draddr dkey.bytes
  btgerr

def btdupkeyAdd (key : Key) (val cblk n : Int) (ke : KeyEnt) : BT Int := do
  let draddr ← binsdt ZDUP (DKey.bytes ⟨keycpy key, false, val, ZNULL, ke.dup⟩)
  if draddr = ZNULL then btgerr
  else
    match ← getdkey ke.dup with
    | none => btgerr
    | some dkey =>
        let status ← putdkey ke.dup { dkey with flink := draddr }
        let _ ← putkeyent cblk n (if status = 0 then { ke with dup := draddr } else ke)
        btgerr

-- The first duplicate turns the plain entry into a chain before the new value is chained.
def btdupkey (key : Key) (val : Int) : BT Int := do
  let lf := (← get).lf
  match ← getkeyent lf.lfblk lf.lfpos with
  | none =>
      bterr "BTDUPKEY" QRDBLK (.num lf.lfblk)
      btgerr
  | some ke =>
      if ke.dup = ZNULL then
        let draddr ← binsdt ZDUP (DKey.bytes ⟨keycpy key, false, ke.val, ZNULL, ZNULL⟩)
        if draddr = ZNULL then btgerr
        else btdupkeyAdd key val lf.lfblk lf.lfpos { ke with val := draddr, dup := draddr }
      else btdupkeyAdd key val lf.lfblk lf.lfpos ke

-- The result of `btduppos` with `*val`.
def btdupposFound (newaddr : Int) (dkey : DKey) : BT (Int × Int) := do
  setLf fun lf => { lf with draddr := newaddr, lfexct := true }
  return (0, dkey.val)

def btdupposLoop (direction val : Int) : Nat → DKey → BT (Int × Int)
  | 0, _ => hang
  | n + 1, dkey => do
      let newaddr := if direction = ZNEXT then dkey.flink else dkey.blink
      if newaddr = ZNULL then
        setLf fun lf => { lf with lfexct := true, draddr := ZNULL }
        return (ZNULL, val)
      else
        match ← getdkey newaddr with
        | none => return (← btgerr, val)
        | some dkey =>
            if dkey.deleted then btdupposLoop direction val n dkey
            else btdupposFound newaddr dkey

def btduppos (direction val : Int) : BT (Int × Int) := do
  let c ← get
  if c.lf.draddr = ZNULL ∧ ¬ c.lf.lfexct then return (ZNULL, val)
  else if c.lf.draddr = ZNULL then
    match ← getkeyent c.lf.lfblk c.lf.lfpos with
    | none => return (ZNULL, val)
    | some ke =>
        if ke.dup = ZNULL then return (ZNULL, val)
        else
          let newaddr := if direction = ZNEXT then ke.val else ke.dup
          match ← getdkey newaddr with
          | none => return (← btgerr, val)
          | some dkey => btdupposFound newaddr dkey
  else
    match ← getdkey c.lf.draddr with
    | none =>
        -- in shared mode the block is taken to have been freed by somebody else
        if c.shared ∧ (← btgerr) = QNOTDUP then
          bterr0
          return (ZNULL, val)
        else return (← btgerr, val)
    | some dkey => btdupposLoop direction val FUEL dkey

def deldkey (draddr : Int) (dkey : DKey) : BT Int := do
  if (← putdkey draddr { dkey with deleted := true }) ≠ 0 then btgerr
  else
    let a := cnvdraddr draddr
    let _ ← deldat a.1 a.2
    return 0

-- One of the two neighbours of a deleted duplicate; `ZNULL` is no neighbour.
def relink (draddr : Int) (f : DKey → DKey) : BT Bool := do
  if draddr = ZNULL then return true
  else
    match ← getdkey draddr with
    | none => return false
    | some dkey => return (← putdkey draddr (f dkey)) = 0

def btdeldup : BT Int := do
  let lf := (← get).lf
  if lf.draddr = ZNULL then return ZNULL
  else
    match ← getdkey lf.draddr with
    | none => btgerr
    | some dkey =>
        match ← getkeyent lf.lfblk lf.lfpos with
        | none => btgerr
        | some ke =>
            let last := dkey.blink = ZNULL ∧ dkey.flink = ZNULL
            if last then setLf fun lf => { lf with draddr := ZNULL }
            let status : Int := if last then ZNULL else 0
            let ke :=
              if last then ke
              else if dkey.blink = ZNULL then { ke with val := dkey.flink }
              else if dkey.flink = ZNULL then { ke with dup := dkey.blink }
              else ke
            if (← deldkey lf.draddr dkey) ≠ 0 then btgerr
            else if ← relink dkey.blink fun d => { d with flink := dkey.flink } then
              if ← relink dkey.flink fun d => { d with blink := dkey.blink } then
                setLf fun lf => { lf with lfexct := false }
                let _ ← putkeyent lf.lfblk lf.lfpos ke
                return status
              else btgerr
            else btgerr

def btdupupd (val : Int) : BT Int := do
  let draddr := (← get).lf.draddr
  if draddr = ZNULL then return draddr
  else
    match ← getdkey draddr with
    | none => btgerr
    | some dkey =>
        let _ ← putdkey draddr { dkey with val := val }
        return draddr

end Btlib
