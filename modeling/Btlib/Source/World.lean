import Btlib.Source.Files

namespace Btlib

variable [Build]

-- The calls of the library on a handle, with what they are given.
inductive Api where
  | btcrt (nkeys : Int) (shared : Bool)
  | btopn (mode : Int) (shared : Bool)
  | btcls
  | btcrtr (root : Key)
  | btchgr (root : Key)
  | btdelr (root : Key)
  | btdups (dups : Int)
  | binsky (key : Key) (val : Int)
  | bfndky (key : Key)
  | bupdky (key : Option Key) (val : Int)
  | bdelky (key : Option Key)
  | bnxtky
  | bprvky
  | btpos (pos : Int)
  | btins (key : Key) (data : List Byte) (dsize : Int)
  | btupd (key : Option Key) (data : List Byte) (dsize : Int)
  | btsel (key : Key) (dsize : Int)
  | btdel (key : Option Key)
  | btseln (dsize : Int)
  | btselp (dsize : Int)
  | btrecs (key : Option Key)
  | btlock
  | btunlock
  | btthresh (n : Int)
  | bdbug (cmd : Debug) (blkno : Int)

-- The code of a call that works on its own handle alone.
def Api.code : Api → BT Int
  | .btcrt nkeys shared => Btlib.btcrt nkeys shared
  | .btopn mode shared => Btlib.btopn mode shared
  | .btcls => Btlib.btcls
  | .btcrtr root => Btlib.btcrtr root
  | .btchgr root => Btlib.btchgr root
  | .btdelr root => Btlib.btdelr root
  | .btdups dups => Btlib.btdups dups
  | .binsky key val => Btlib.binsky key val
  | .bfndky key => do return (← Btlib.bfndky key).1
  | .bupdky key val => Btlib.bupdky key val
  | .bdelky key => Btlib.bdelky key
  | .bnxtky => do return (← Btlib.bnxtky).1
  | .bprvky => do return (← Btlib.bprvky).1
  | .btpos pos => Btlib.btpos pos
  | .btins key data dsize => Btlib.btins key data dsize
  | .btupd key data dsize => Btlib.btupd key data dsize
  | .btsel key dsize => do return (← Btlib.btsel key dsize).1
  | .btdel key => Btlib.btdel key
  | .btseln dsize => do return (← Btlib.btseln dsize).1
  | .btselp dsize => do return (← Btlib.btselp dsize).1
  | .btrecs key => do return (← Btlib.btrecs key).1
  | .btlock => Btlib.btlock
  | .btunlock => Btlib.btunlock
  | .btthresh n => Btlib.btthresh n
  | .bdbug cmd blkno =>
      api "BDBUG" id do
        let ok ← enter "BDBUG"
        if ok then bdbugBody cmd blkno
        leave
        btgerr

-- `btthresh`, and `btupd` of a negative size, return before `btact` is set.
def Api.aside : Api → Bool
  | .btthresh _ => true
  | .btupd _ _ dsize => dsize < 0
  | _ => false

def Api.opens : Api → Bool
  | .btcrt _ _ | .btopn _ _ => true
  | _ => false

def Api.name : Api → String
  | .btcrt _ _ => "BTCRT"
  | .btopn _ _ => "BTOPN"
  | .btcls => "BTCLS"
  | .btcrtr _ => "BTCRTR"
  | .btchgr _ => "BTCHGR"
  | .btdelr _ => "BTDELR"
  | .btdups _ => "BTDUPS"
  | .binsky _ _ => "BINSKY"
  | .bfndky _ => "BFNDKY"
  | .bupdky _ _ => "BUPDKY"
  | .bdelky _ => "BDELKY"
  | .bnxtky => "BNXTKY"
  | .bprvky => "BPRVKY"
  | .btpos _ => "BTPOS"
  | .btins _ _ _ => "BTINS"
  | .btupd _ _ _ => "BTUPD"
  | .btsel _ _ => "BTSEL"
  | .btdel _ => "BTDEL"
  | .btseln _ => "BTSELN"
  | .btselp _ => "BTSELP"
  | .btrecs _ => "BTRECS"
  | .btlock => "BTLOCK"
  | .btunlock => "BTUNLOCK"
  | .btthresh _ => "BTTHRESH"
  | .bdbug _ _ => "BDBUG"

-- All the handles, the one used last, and what is behind them.
structure World (σ : Type) where
  ctx : Nat → Ctx
  active : Nat
  machine : σ

namespace World

variable {σ α : Type}

-- The error and the buffer of bsrhbk.c belong to no handle.
def enter (w : World σ) (i : Nat) : Ctx :=
  { w.ctx i with err := (w.ctx w.active).err, keyent := (w.ctx w.active).keyent }

def put (w : World σ) (i : Nat) (c : Ctx) (s : σ) : World σ :=
  ⟨Function.update w.ctx i c, i, s⟩

-- The same where the handle used last stays the active one.
def stay (w : World σ) (i : Nat) (c : Ctx) (s : σ) : World σ :=
  ⟨Function.update (Function.update w.ctx i c) w.active
    { Function.update w.ctx i c w.active with err := c.err, keyent := c.keyent }, w.active, s⟩

-- A piece of a call that runs on the handle `i`.
def run (h : Nat → Prog.Machine Op Res σ) (i : Nat) (x : BT α) (w : World σ) :
    Prog.Outcome Op σ (α × World σ) :=
  ((x (w.enter i)).run (h i) w.machine).map fun r => (r.1.1, w.put i r.1.2 r.2)

def call (h : Nat → Prog.Machine Op Res σ) (i : Nat) (a : Api) (w : World σ) :
    Prog.Outcome Op σ (Int × World σ) :=
  ((a.code (w.enter i)).run (h i) w.machine).map fun r =>
    (r.1.1, if a.aside then w.stay i r.1.2 r.2 else w.put i r.1.2 r.2)

-- `bdbug` locks the handle used last, and unlocks its own.
def bdbug (h : Nat → Prog.Machine Op Res σ) (i : Nat) (cmd : Debug) (blkno : Int) (w : World σ) :
    Prog.Outcome Op σ (Int × World σ) :=
  (w.run h w.active (do bterr0; Btlib.enter "BDBUG")).bind fun r =>
    if r.1 then
      r.2.run h i do
        bdbugBody cmd blkno
        leave
        btgerr
    else
      r.2.run h w.active do
        leave
        btgerr

-- A call on a handle that is not open leaves the handle used last the active one.
def refuse (h : Nat → Prog.Machine Op Res σ) (fn : String) (w : World σ) :
    Prog.Outcome Op σ (Int × World σ) :=
  w.run h w.active do
    bterr0
    bterr fn QBADAP .none
    return QBADAP

-- `btcrt` and `btopn` are given a slot that is not in use.
def step (h : Nat → Prog.Machine Op Res σ) (i : Nat) (a : Api) (w : World σ) :
    Prog.Outcome Op σ (Int × World σ) :=
  if a.opens then if (w.ctx i).isopen then .done (QINERR, w) else w.run h i a.code
  else if (w.ctx i).isopen then
    match a with
    | .bdbug cmd blkno => w.bdbug h i cmd blkno
    | a => w.call h i a
  else w.refuse h a.name

end World

end Btlib
