import Btlib.Context

namespace Btlib

variable [Build]

def bgtinf (blk : Int) (type : Inf) : BT Int := do
  match ← brdblk blk with
  | none =>
      bterr "BGTINF" QRDBLK (.num blk)
      return 0
  | some b => return b.getInf type

def bstinf (blk : Int) (type : Inf) (val : Int) : BT Unit := do
  match ← brdblk blk with
  | none => bterr "BSTINF" QRDBLK (.num blk)
  | some b => wr blk (b.setInf type val) 1

def bsetbk (blk type misc nxblk nkeys nblks dupblk : Int) : BT Unit := do
  match ← brdblk blk with
  | none => bterr "BSETBK" QRDBLK (.num blk)
  | some b =>
      bstinf blk .ZBTYPE type
      wr blk { b.setInf .ZBTYPE type with
        misc := misc, nxblk := nxblk, nkeys := nkeys, nblks := nblks, nxdup := dupblk } 1

def bsetbs (blk : Int) (on : Bool) : BT Unit := do
  match ← brdblk blk with
  | none => bterr "BSETBS" QRDBLK (.num blk)
  | some _ => ask (.busy blk on)

-- A new block is carved from the end of the file when the free list is empty.
def bgtfre : BT Int := do
  let c ← get
  if c.super.sfreep = ZNULL then
    let blk := c.super.sblkmx
    let faddr := wrap (blk * ZBLKSZ + ZBLKSZ)
    if faddr < 0 ∨ BTINT_MAX ≤ faddr then
      bterr "BGTFRE" QF2BIG .none
      return ZNULL
    else
      match ← ask (.grow blk) with
      | .noslot =>
          bterr "BGTSLT" QNOMEM .none
          setSuper fun p => { p with smod := p.smod + 1 }
          return ZNULL
      | .failed =>
          bterr "BGTFRE" QWRBLK (.num blk)
          return ZNULL
      | .lost =>
          bterr "BGTSLT" QWRBLK .none
          setSuper fun p => { p with sblkmx := p.sblkmx + 1, smod := p.smod + 1 }
          return blk
      | .ok =>
          setSuper fun p => { p with sblkmx := p.sblkmx + 1, smod := p.smod + 1 }
          return blk
  else
    let blk := c.super.sfreep
    match ← brdblk blk with
    | none =>
        bterr "BGTFRE" QRDBLK (.num blk)
        setSuper fun p => { p with
          snfree := if 0 ≤ blk then p.snfree - 1 else p.snfree, smod := p.smod + 1 }
        return blk
    | some _ =>
        if (← bgtinf blk .ZBTYPE) ≠ ZFREE then
          bterr "BGTFRE" QNOTFR (.num blk)
          return ZNULL
        else
          let next ← bgtinf blk .ZNXBLK
          setSuper fun p => { p with
            sfreep := next,
            snfree := if 0 ≤ blk then p.snfree - 1 else p.snfree, smod := p.smod + 1 }
          return blk

def bmkfre (blk : Int) : BT Unit := do
  let croot := (← get).super.scroot
  if (← bgtinf blk .ZBTYPE) = ZDUP then
    if (← bgtinf croot .ZNXDUP) = blk then bstinf croot .ZNXDUP ZNULL
  bsetbk blk ZFREE 0 (← get).super.sfreep 0 0 ZNULL
  setSuper fun p => { p with sfreep := blk, snfree := p.snfree + 1, smod := p.smod + 1 }

-- The parameters `bsrhbk` reads and writes through pointers; one it leaves alone keeps its value.
structure Srh where
  key : Key := []
  loc : Int := 0
  val : Int := 0
  link1 : Int := 0
  link2 : Int := 0
  result : Int := 0
deriving DecidableEq, Repr

-- The key entry pointer it returns is that of the static buffer `keyent`.
def bsrhbk (blk : Int) (o : Srh) : BT Srh := do
  match ← brdblk blk with
  | none =>
      bterr "BSRHBK" QRDBLK (.num blk)
      return o
  | some b =>
      if 0 ≤ o.loc ∧ b.nkeys ≤ o.loc then return { o with result := -1 }
      else
        let o :=
          if 0 ≤ o.loc then { o with key := keycpy (b.keyblk o.loc).key, result := 0 }
          else
            let r := b.search o.key b.nkeys.toNat 0 (b.nkeys - 1) (-1) (-1)
            { o with loc := r.1, result := r.2 }
        if o.loc < 0 then return { o with val := 0, link1 := ZNULL, link2 := ZNULL }
        else
          modify fun c => { c with keyent := b.keyblk o.loc }
          return { o with
            val := (b.keyblk o.loc).val, link1 := b.lnkblk o.loc, link2 := b.lnkblk (o.loc + 1) }

def bputky (blk : Int) (ke : KeyEnt) (link1 link2 : Int) : BT Unit := do
  match ← brdblk blk with
  | none => bterr "BPUTKY" QRDBLK (.num blk)
  | some b =>
      if b.nkeys = ZMXKEY then bterr "BPUTKY" QBLKFL (.num blk)
      else
        wr blk (b.putky ke link1 link2) 1
        mark blk
        writeThrough blk

def bremky (blk pos : Int) : BT Unit := do
  match ← brdblk blk with
  | none => bterr "BREMKY" QRDBLK (.num blk)
  | some b =>
      wr blk (b.remky pos) 1
      mark blk
      writeThrough blk

def brepky (blk loc : Int) (ke : KeyEnt) (link1 link2 : Int) : BT Unit := do
  if ZMXKEY ≤ loc ∨ loc < 0 then bterr "BREPKY" QLOCTB (.num loc)
  else
    match ← brdblk blk with
    | none => bterr "BREPKY" QRDBLK (.num blk)
    | some b => wr blk (b.repky loc ke link1 link2) 1

-- The to-block is wired down while the from-block is read.
def bcpybk (tblk fblk ts fs n : Int) : BT Unit := do
  match ← brdblk tblk with
  | none => bterr "BCPYBK" QCPBLK .none
  | some t =>
      bsetbs tblk true
      let f ← brdblk fblk
      bsetbs tblk false
      match f with
      | none => bterr "BCPYBK" QCPBLK .none
      | some f => wr tblk (t.cpybk f ts fs n.toNat) n

def bleafLoop (dir : Int) : Nat → Block → BT (Option Block)
  | 0, _ => hang
  | n + 1, b => do
      let lf := (← get).lf
      if b.lnkblk lf.lfpos = ZNULL then return some b
      else
        bpush lf.lfblk
        bpush lf.lfpos
        let blk := b.lnkblk lf.lfpos
        setLf fun lf => { lf with lfblk := blk }
        match ← brdblk blk with
        | none =>
            bterr "BLEAF" QRDBLK (.num blk)
            return none
        | some b =>
            if dir = 0 then setLf fun lf => { lf with lfpos := 0 }
            else
              let nkeys ← bgtinf blk .ZNKEYS
              setLf fun lf => { lf with lfpos := nkeys }
            bleafLoop dir n b

-- Walks from the last found position to the leftmost or rightmost leaf below it.
def bleaf (dir : Int) : BT (Option Block) := do
  let lf := (← get).lf
  match ← brdblk lf.lfblk with
  | none =>
      bterr "BLEAF" QRDBLK (.num lf.lfblk)
      return none
  | some b =>
      if (← bgtinf lf.lfblk .ZNKEYS) = 0 then return some b
      else bleafLoop dir FUEL b

-- How many keys stay in a block that is split, and how many move to the new block.
def sp : Nat := ZMXKEY / 2

def sp2 : Nat := if ZMXKEY % 2 = 0 then sp - 1 else sp

-- `bsptbk`: the value of `*newblk`.
def bsptbk (blk : Int) : BT Int := do
  let type ← bgtinf blk .ZBTYPE
  if type = ZROOT then
    let blk1 ← bgtfre
    if blk1 < 0 then return ZNULL
    else
      let blk2 ← bgtfre
      if blk2 < 0 then return ZNULL
      else
        bcpybk blk1 blk 0 0 sp
        bcpybk blk2 blk 0 (sp + 1) sp2
        let root := (← get).super.scroot
        bsetbk blk1 ZINUSE 0 blk sp root ZNULL
        bsetbk blk2 ZINUSE 0 blk sp2 root ZNULL
        let r ← bsrhbk blk { loc := sp }
        if r.result ≠ 0 then
          bterr "BSPTBK" QSPKEY .none
          return ZNULL
        else
          brepky blk 0 (← get).keyent blk1 blk2
          bstinf blk .ZNKEYS 1
          return blk1
  else
    bsetbs blk true
    let newblk ← bgtfre
    if newblk < 0 then return newblk
    else
      bcpybk newblk blk 0 (sp + 1) sp2
      let c ← get
      bsetbk newblk ZINUSE 0 c.lf.lfblk sp2 c.super.scroot ZNULL
      let r ← bsrhbk blk { loc := sp }
      if r.result ≠ 0 then
        bterr "BSPTBK" QSPKEY .none
        return newblk
      else
        bstinf blk .ZNKEYS sp
        bputky c.lf.lfblk (← get).keyent blk newblk
        bsetbs blk false
        return newblk

end Btlib
