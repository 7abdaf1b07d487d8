import Btlib.Source.Dups

namespace Btlib

variable [Build]

def brdsup : BT Int := do
  match ← brdblk ZSUPER with
  | none => bterr "BRDSUP" QRDSUP (.text "(EOF?)")
  | some _ =>
      let ver ← bgtinf ZSUPER .ZBTVER
      let type ← bgtinf ZSUPER .ZBTYPE
      let misc ← bgtinf ZSUPER .ZMISC
      if type ≠ ZROOT then bterr "BRDSUP" QBLKNR (.num ZSUPER)
      else if ver = LFSHDR then bterr "BRDSUP" QNOT64BIT .none
      else if ver ≠ ZVERS then bterr "BRDSUP" QBADVR (.num ZVERS)
      else if misc = LFSHDR then bterr "BRDSUP" Q64BIT .none
      else
        let sfreep ← bgtinf ZSUPER .ZNXBLK
        let sblkmx ← bgtinf ZSUPER .ZNBLKS
        setSuper fun p => { p with snfree := misc, sfreep := sfreep, sblkmx := sblkmx }
  btgerr

-- Whether the superroot was written.
def bwrsup : BT Bool := do
  match ← brdblk ZSUPER with
  | none =>
      bterr "BWRSUP" QRDSUP (.num ZSUPER)
      return false
  | some _ =>
      let nkeys ← bgtinf ZSUPER .ZNKEYS
      let p := (← get).super
      bsetbk ZSUPER ZROOT p.snfree p.sfreep nkeys p.sblkmx ZNULL
      let ok ← bwrblk ZSUPER
      if ¬ ok then bterr "BWRSUP" QWRSUP (.num ZSUPER)
      return ok

def btsync : BT Int := do
  let ok ← ask .wrall
  if ok then
    if (← get).super.smod ≠ 0 then
      if ← bwrsup then
        setSuper fun p => { p with smod := 0 }
        ask .initcntrl
    else ask .initcntrl
  else bterr "BTSYNC" QWRBLK .none
  btgerr

def block : BT Bool := do
  let c ← get
  if 0 < c.lckcnt then
    modify fun c => { c with lckcnt := c.lckcnt + 1 }
    return true
  else if ← ask .lock then
    if c.shared ∧ c.super.scroot ≠ ZNULL then
      let _ ← brdsup
      match ← brdblk c.super.scroot with
      | none => pure ()
      | some _ => bsetbs c.super.scroot true
    modify fun c => { c with lckcnt := 1 }
    return true
  else return false

def bulock : BT Unit := do
  let c ← get
  if 1 < c.lckcnt then modify fun c => { c with lckcnt := c.lckcnt - 1 }
  else if c.lckcnt = 1 then
    let _ ← btsync
    let ok ← ask .unlock
    if ¬ ok then bterr "BULOCK" QUNLCK .none
    modify fun c => { c with lckcnt := 0 }

-- How the calls on a shared handle begin: they go on only when they get the lock.
def enter (fn : String) : BT Bool := do
  if (← get).shared then
    let ok ← block
    if ¬ ok then bterr fn QBUSY .none
    pure ok
  else pure true

def leave : BT Unit := do
  if (← get).shared then bulock

def within {α : Type} (fn : String) (busy : α) (body : BT α) : BT α := do
  let ok ← enter fn
  if ok then body else pure busy

def locked {α : Type} (fn : String) (busy : α) (body : BT α) : BT α := do
  let r ← within fn busy body
  leave
  pure r

-- Every call of the library clears the error and checks its handle first.
def api {α : Type} (fn : String) (bad : Int → α) (body : BT α) : BT α := do
  bterr0
  let status ← bvalap fn
  if status ≠ 0 then pure (bad status) else body

def withErr {α : Type} (body : BT α) : BT (Int × α) := do
  let r ← body
  let status ← btgerr
  pure (status, r)

def errOf (body : BT Unit) : BT Int := do
  body
  btgerr

end Btlib
