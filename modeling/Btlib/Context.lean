import Btlib.Theory.Prog
import Btlib.Block

namespace Btlib

-- The argument `bterr` is given for the message.
inductive Arg where
  | none
  | num (i : Int)
  | key (k : Key)
  | text (s : String)
deriving DecidableEq, Repr

-- The error kept by bterr.c.
structure Err where
  qname : String
  qerror : Int
  qarg : Arg
deriving DecidableEq, Repr

structure Lf where
  lfkey : Key
  lfblk : Int
  lfpos : Int
  lfexct : Bool
  draddr : Int
deriving DecidableEq, Repr

structure Super where
  sblkmx : Int
  snfree : Int
  sfreep : Int
  scroot : Int
  smode : Int
  smod : Int
  scclas : Key
deriving DecidableEq, Repr

-- One handle with its context, and the static buffer of bsrhbk.c. The head of `stk` is its top.
structure Ctx where
  isopen : Bool
  shared : Bool
  lckcnt : Int
  wt_threshold : Int
  err : Err
  lf : Lf
  stk : List Int
  super : Super
  keyent : KeyEnt
deriving DecidableEq, Repr

-- What a call asks of the cache and the file.
inductive Op where
  -- `brdblk`
  | rd (blk : Int)
  -- changed contents for the slot of the block just read, and `n` more writes
  | wr (blk : Int) (b : Block) (n : Int)
  | busy (blk : Int) (on : Bool)
  -- a slot for a new block at the end of the file, forced out at once
  | grow (blk : Int)
  -- remembers the slot the block is in
  | mark (blk : Int)
  -- the write-through test of the remembered slot, and `bwrblk` of the block
  | through (n : Int) (blk : Int)
  | wrblk (blk : Int)
  | wrall
  | initcntrl
  | lock
  | unlock
  | creat
  | fopen
  | fclose
  -- labels the slot `bgtslt` gives
  | label (blk : Int)
  -- labels the slot labelled last once more
  | relabel (blk : Int)
  -- a call of `bterr`, asked so that runs can be told apart by it
  | report (name : String) (code : Int)

-- `lost` is `ok` with an evicted block that could not be written.
inductive Grown where
  | ok | lost | noslot | failed
deriving DecidableEq, Repr

-- A block read comes with a flag: an evicted block could not be written.
abbrev Res : Op → Type
  | .rd _ => Option Block × Bool
  | .grow _ => Grown
  | .wrblk _ | .wrall | .lock | .unlock | .creat | .fopen | .fclose => Bool
  | _ => Unit

abbrev BT := StateT Ctx (Prog Op Res)

def ask (o : Op) : BT (Res o) := fun c => (Prog.call o).bind fun r => .ret (r, c)

def hang {α : Type} : BT α := fun _ => .hang

section Setters

def setLf (f : Lf → Lf) : BT Unit := modify fun c => { c with lf := f c.lf }

def setSuper (f : Super → Super) : BT Unit := modify fun c => { c with super := f c.super }

def setStk (f : List Int → List Int) : BT Unit := modify fun c => { c with stk := f c.stk }

def setErr (f : Err → Err) : BT Unit := modify fun c => { c with err := f c.err }

end Setters

-- `bterr("",0,NULL)`
def bterr0 : BT Unit := setErr fun _ => ⟨"", 0, .none⟩

-- Only the first error is recorded.
def bterr (name : String) (code : Int) (arg : Arg) : BT Unit := do
  let _ ← ask (.report name code)
  setErr fun e => if e.qerror = 0 then ⟨name, code, arg⟩ else e

def btgerr : BT Int := do return (← get).err.qerror

def bvalap (fn : String) : BT Int := do
  let c ← get
  if c.isopen then return 0
  else
    bterr fn QBADAP .none
    return QBADAP

-- `brdblk`: the contents of the slot it answers with, if there is one.
def brdblk (blk : Int) : BT (Option Block) := do
  let r ← ask (.rd blk)
  if r.2 then
    bterr "BGTSLT" QWRBLK .none
    return r.1
  else return r.1

def bwrblk (blk : Int) : BT Bool := ask (.wrblk blk)

def wr (blk : Int) (b : Block) (n : Int) : BT Unit := ask (.wr blk b n)

def mark (blk : Int) : BT Unit := ask (.mark blk)

-- The write-through test that ends the block mutators.
def writeThrough (blk : Int) : BT Unit := do
  let c ← get
  if 0 < c.wt_threshold then ask (.through c.wt_threshold blk)

section Stack

def bstkin : BT Unit := setStk fun _ => []

def bpush (val : Int) : BT Unit := do
  let c ← get
  if (STKMAX : Int) ≤ (c.stk.length : Int) - 1 then bterr "BPUSH" QSTKOF .none
  else setStk fun stk => val :: stk

def bpull : BT Int := do
  let c ← get
  match c.stk with
  | [] =>
      bterr "BPULL" QSTKUF .none
      return 0
  | val :: stk =>
      setStk fun _ => stk
      return val

end Stack

def bclrlf : BT Unit := setLf fun _ => ⟨[], ZNULL, ZNULL, false, ZNULL⟩

end Btlib
