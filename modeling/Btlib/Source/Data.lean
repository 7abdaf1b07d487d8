import Btlib.Source.Blocks

namespace Btlib

variable [Build]

def slice (l : List Byte) (off : Int) (n : Nat) : List Byte :=
  (List.range n).map fun j => l.getD (off + j).toNat 0

def getseginfo (draddr : Int) : BT (Int × Int) := do
  let a := cnvdraddr draddr
  match ← brdblk a.1 with
  | none => return (0, draddr)
  | some b =>
      return (rdsz (b.bytes a.2 ZDRSZ), rdint (b.bytes (a.2 + ZDRSZ) ZBPW))

def mkdblk (type : Int) : BT Int := do
  let blk ← bgtfre
  if blk = ZNULL then return ZNULL
  else if mkdraddr blk 0 = 0 then
    bterr "MKDBLK" QDAOVR (.num blk)
    return ZNULL
  else if type = ZDATA ∨ type = ZDUP then
    bsetbk blk type ZDATSZ ZNULL 0 ZNULL (if type = ZDATA then ZDSGMN else sizeofDKey)
    return blk
  else
    bterr "MKDBLK" (-1) (.num type)
    return ZNULL

def insdat (blk : Int) (data : List Byte) (prevseg : Int) : BT Int := do
  let offset ← bgtinf blk .ZNKEYS
  match ← brdblk blk with
  | none => return offset
  | some b =>
      let seg := wrsz data.length ++ wrint prevseg ++ data
      wr blk (b.setBytes offset seg) 1
      bstinf blk .ZNKEYS (offset + ZDOVRH + data.length)
      let freesz ← bgtinf blk .ZMISC
      bstinf blk .ZMISC (freesz - (ZDOVRH + data.length))
      mark blk
      writeThrough blk
      return offset

def listInf (type : Int) : Inf := if type = ZDATA then .ZNXBLK else .ZNXDUP

-- Segments are stored back to front: `remsize` bytes are still to be stored, those before `segptr`.
def binsdtLoop (type : Int) (data : List Byte) (minsegsize : Int) :
    Nat → (dblk segptr remsize segaddr : Int) → BT Int
  | 0, _, _, _, _ => hang
  | n + 1, dblk, segptr, remsize, segaddr => do
      let used ← bgtinf dblk .ZNKEYS
      let freesz := ZDATSZ - used
      if remsize + ZDOVRH ≤ freesz then
        let offset ← insdat dblk (slice data (segptr - remsize) remsize.toNat) segaddr
        if offset = ZNULL then return ZNULL
        else return mkdraddr dblk offset
      else if freesz < ZDOVRH + minsegsize then
        let nblk ← mkdblk type
        if nblk = ZNULL then
          bterr "BINSDT" QNOBLK .none
          return ZNULL
        else
          bstinf nblk .ZNXBLK dblk
          bstinf dblk .ZNBLKS nblk
          bstinf (← get).super.scroot (listInf type) nblk
          binsdtLoop type data minsegsize n nblk segptr remsize segaddr
      else
        let segsz := freesz - ZDOVRH
        let offset ← insdat dblk (slice data (segptr - segsz) segsz.toNat) segaddr
        binsdtLoop type data minsegsize n dblk (segptr - segsz) (remsize - segsz)
          (mkdraddr dblk offset)

def binsdt (type : Int) (data : List Byte) : BT Int := do
  let root := (← get).super.scroot
  let active ← bgtinf root (listInf type)
  let dblk ← if active = ZNULL then mkdblk type else pure active
  if dblk = ZNULL then
    bterr "BINSDT" QNOBLK .none
    return ZNULL
  else
    if active = ZNULL then bstinf root (listInf type) dblk
    if (← bgtinf dblk .ZBTYPE) ≠ type then
      bterr "BINSDT" QNOTDA (.num dblk)
      return ZNULL
    else
      let minsegsize ← bgtinf dblk .ZNXDUP
      binsdtLoop type data minsegsize FUEL dblk data.length data.length 0

def deldat (blk offset : Int) : BT Int := do
  match ← brdblk blk with
  | none => return -1
  | some b =>
      mark blk
      let misc ← bgtinf blk .ZMISC
      let freesz := misc + (rdsz (b.bytes offset ZDRSZ) + ZDOVRH)
      if freesz = ZDATSZ then
        bstinf blk .ZMISC freesz
        bstinf blk .ZNKEYS 0
        let pblk ← bgtinf blk .ZNBLKS
        let nblk ← bgtinf blk .ZNXBLK
        if nblk ≠ ZNULL then bstinf nblk .ZNBLKS pblk
        if pblk ≠ ZNULL then bstinf pblk .ZNXBLK nblk
        bmkfre blk
        let root := (← get).super.scroot
        if blk = (← bgtinf root .ZNXBLK) then bstinf root .ZNXBLK ZNULL
      else if freesz < 0 ∨ ZDATSZ < freesz then bterr "DELDAT" QNEGSZ (.num freesz)
      else bstinf blk .ZMISC freesz
      writeThrough blk
      return 0

def bdeldtLoop : Nat → (draddr status : Int) → BT Int
  | 0, _, _ => hang
  | n + 1, draddr, status =>
      if draddr = 0 then return status
      else do
        let a := cnvdraddr draddr
        if (← bgtinf a.1 .ZBTYPE) ≠ ZDATA then
          bterr "BDELDT" QNOTDA .none
          return QNOTDA
        else
          let seg ← getseginfo draddr
          let status ← deldat a.1 a.2
          bdeldtLoop n seg.2 status

def bdeldt (draddr : Int) : BT Int := bdeldtLoop FUEL draddr 0

-- `data` is what is still to be copied, `remsz` of it; the last two results are the segment written
-- last.
def bupddtLoop : Nat → (draddr : Int) → (data : List Byte) → (remsz dblk offset type : Int) →
    BT (Option (Int × List Byte × Int × Int × Int × Int))
  | 0, _, _, _, _, _, _ => hang
  | n + 1, draddr, data, remsz, dblk, offset, type =>
      if draddr ≠ 0 ∧ 0 ≤ remsz then do
        let a := cnvdraddr draddr
        let type ← bgtinf a.1 .ZBTYPE
        if type ≠ ZDATA ∧ type ≠ ZDUP then
          bterr "BUPDDT" QNOTDA (.num draddr)
          return none
        else
          let seg ← getseginfo draddr
          let cpsz := if remsz < seg.1 then remsz else seg.1
          match ← brdblk a.1 with
          | none => return none
          | some b =>
              let b := b.setBytes (a.2 + ZDOVRH) (slice data 0 cpsz.toNat)
              if cpsz = remsz then
                wr a.1 ((b.setBytes a.2 (wrsz cpsz)).setBytes (a.2 + ZDRSZ) (wrint 0)) 1
                let freesz ← bgtinf a.1 .ZMISC
                bstinf a.1 .ZMISC (freesz + (seg.1 - cpsz))
                bupddtLoop n seg.2 (data.drop cpsz.toNat)
                  ((if cpsz = 0 then -1 else remsz) - cpsz) a.1 a.2 type
              else
                wr a.1 b 1
                bupddtLoop n seg.2 (data.drop cpsz.toNat) (remsz - cpsz) a.1 a.2 type
      else return some (draddr, data, remsz, dblk, offset, type)

def bupddt (draddr : Int) (data : List Byte) : BT Int := do
  match ← bupddtLoop FUEL draddr data data.length 0 0 0 with
  | none => btgerr
  | some (draddr, data, remsz, dblk, offset, type) =>
      if draddr ≠ 0 then
        let _ ← bdeldt draddr
        btgerr
      else if 0 < remsz then
        let draddr ← binsdt type data
        match ← brdblk dblk with
        | none => btgerr
        | some b =>
            wr dblk (b.setBytes (offset + ZDRSZ) (wrint (if draddr = ZNULL then 0 else draddr))) 1
            btgerr
      else btgerr

def bseldtLoop : Nat → (draddr sprem : Int) → (buf : List Byte) → BT (Int × List Byte)
  | 0, _, _, _ => hang
  | n + 1, draddr, sprem, buf =>
      if 0 < sprem ∧ draddr ≠ 0 then do
        let a := cnvdraddr draddr
        let type ← bgtinf a.1 .ZBTYPE
        if type ≠ ZDATA ∧ type ≠ ZDUP then
          bterr "BSELDT" QNOTDA (.num a.1)
          return (-1, buf)
        else
          match ← brdblk a.1 with
          | none => return (-1, buf)
          | some b =>
              let segsz := rdsz (b.bytes a.2 ZDRSZ)
              let cpsz := if sprem < segsz then sprem else segsz
              bseldtLoop n (rdint (b.bytes (a.2 + ZDRSZ) ZBPW)) (sprem - cpsz)
                (buf ++ b.bytes (a.2 + ZDOVRH) cpsz.toNat)
      else return (buf.length, buf)

-- The size `bseldt` returns, and the bytes it copied.
def bseldt (draddr dsize : Int) : BT (Int × List Byte) := bseldtLoop FUEL draddr dsize []

def brecszLoop : Nat → (draddr recsz : Int) → BT Int
  | 0, _, _ => hang
  | n + 1, draddr, recsz =>
      if draddr = 0 then return recsz
      else do
        let a := cnvdraddr draddr
        if (← bgtinf a.1 .ZBTYPE) ≠ ZDATA then
          bterr "BRECSZ" QNOTDA (.num a.1)
          return 0
        else
          let seg ← getseginfo draddr
          if seg.2 = draddr then
            bterr "BRECSZ" QDLOOP (.num draddr)
            return 0
          else brecszLoop n seg.2 (recsz + seg.1)

def brecsz (draddr : Int) : BT Int := brecszLoop FUEL draddr 0

def dataok : BT Bool := do return (← get).super.scroot ≠ ZSUPER

end Btlib
