import Mathlib.Data.Int.Bitwise
import Mathlib.Data.List.Lex
import Mathlib.Data.Fin.Basic

namespace Btlib

-- The constants of bc.h that differ between the two builds. `FUEL` bounds the turns of a loop.
class Build where
  ZMXKEY : Nat
  ZMXBLK : Nat
  ZBPW : Nat
  ZBLKLOG : Nat
  LFS : Bool
  FUEL : Nat

export Build (ZMXKEY ZMXBLK ZBPW FUEL)

def ZBLKSZ [Build] : Nat := 2 ^ Build.ZBLKLOG

def BTINT_MAX [Build] : Int := 2 ^ (8 * ZBPW - 1) - 1

abbrev build32 (fuel : Nat) : Build := ⟨22, 3, 4, 10, false, fuel⟩

abbrev build64 (fuel : Nat) : Build := ⟨145, 16, 8, 13, true, fuel⟩

abbrev ZKYLEN : Nat := 32
abbrev ZTHRES : Nat := 3
abbrev ZINFSZ : Nat := 6
abbrev STKMAX : Nat := 40
abbrev ZVERS : Int := 5
-- In the 32-bit build C compares it as an unsigned word, so `brdsup` would take a free count of -4530705 for it; no
-- such count is reached.
abbrev LFSHDR : Int := 0xFFBADDEF

abbrev ZNULL : Int := -1
abbrev ZSUPER : Int := 0
abbrev DEFAULT_ROOT : Int := 1

abbrev ZROOT : Int := 1
abbrev ZINUSE : Int := 2
abbrev ZFREE : Int := 3
abbrev ZDATA : Int := 4
abbrev ZDUP : Int := 5

abbrev ZDRSZ : Nat := 2
abbrev ZDSGMN : Int := 7

def ZDOVRH [Build] : Nat := ZDRSZ + ZBPW

-- Bytes of a data block behind its info words.
def ZDATSZ [Build] : Nat := ZBLKSZ - ZINFSZ * ZBPW

abbrev QBLKNR : Int := 1
abbrev QCLSIO : Int := 2
abbrev QCRTIO : Int := 3
abbrev QCPBLK : Int := 4
abbrev QWRBLK : Int := 5
abbrev QRDSUP : Int := 6
abbrev QWRSUP : Int := 7
abbrev QOPNIO : Int := 8
abbrev QRDBLK : Int := 9
abbrev QSPLIT : Int := 11
abbrev QNOMEM : Int := 13
abbrev QSTKUF : Int := 14
abbrev QSTKOF : Int := 15
abbrev QBLKFL : Int := 16
abbrev QLOCTB : Int := 17
abbrev QSPKEY : Int := 18
abbrev QBALSE : Int := 20
abbrev QDELEX : Int := 21
abbrev QDELER : Int := 22
abbrev QDELRP : Int := 23
abbrev QDEMSE : Int := 24
abbrev QDEMSP : Int := 25
abbrev QJNSE : Int := 26
abbrev QDELCR : Int := 28
abbrev QINERR : Int := 31
abbrev QBADOP : Int := 32
abbrev QBADAP : Int := 34
abbrev QBUSY : Int := 35
abbrev QNOTOP : Int := 36
abbrev QNOBLK : Int := 37
abbrev QNEGSZ : Int := 38
abbrev QNOTDA : Int := 39
abbrev QBADCTXT : Int := 40
abbrev QDLOOP : Int := 41
abbrev QUNLCK : Int := 42
abbrev QDAERR : Int := 44
abbrev QDNEG : Int := 45
abbrev QDUP : Int := 46
abbrev QNOKEY : Int := 47
abbrev QNOWRT : Int := 48
abbrev QNOTFR : Int := 49
abbrev QBADVR : Int := 50
abbrev QDAOVR : Int := 51
abbrev QF2BIG : Int := 52
abbrev QDRANEG : Int := 54
abbrev QNODUPS : Int := 56
abbrev QPOSERR : Int := 57
abbrev QNOT64BIT : Int := 58
abbrev Q64BIT : Int := 59
abbrev QNOTDUP : Int := 60
abbrev QDUPSZ : Int := 61

abbrev Byte := Fin 256

instance neZeroByte : NeZero 256 := ⟨by decide⟩

-- The bytes of a C string before its terminating zero.
abbrev Key := List Byte

def key (s : String) : Key := s.toList.map fun c => Fin.ofNat 256 c.toNat

def strcmp : Key → Key → Int
  | [], [] => 0
  | [], b :: _ => -(b.val + 1 : Int)
  | a :: _, [] => (a.val + 1 : Int)
  | a :: as, b :: bs => if a = b then strcmp as bs else (a.val : Int) - b.val

-- `strncpy(to,from,ZKYLEN); to[ZKYLEN-1] = '\0'`.
def keycpy (k : Key) : Key := k.take (ZKYLEN - 1)

structure KeyEnt where
  key : Key
  val : Int
  dup : Int
deriving DecidableEq, Repr

-- A block in memory: the info words, and the two readings of the rest of it.
structure Block where
  btype : Int
  btver : Int
  bthdr : Int
  misc : Int
  nxblk : Int
  nkeys : Int
  nblks : Int
  nxdup : Int
  keyblk : Int → KeyEnt
  lnkblk : Int → Int
  data : Int → Byte

inductive Inf where
  | ZBTYPE | ZBTVER | ZMISC | ZNXBLK | ZNKEYS | ZNBLKS | ZNXDUP
deriving DecidableEq, Repr

namespace Block

def getInf [Build] (b : Block) : Inf → Int
  | .ZBTYPE => b.btype
  | .ZBTVER => if Build.LFS ∧ b.bthdr ≠ LFSHDR then LFSHDR else b.btver
  | .ZMISC => b.misc
  | .ZNXBLK => b.nxblk
  | .ZNKEYS => b.nkeys
  | .ZNBLKS => b.nblks
  | .ZNXDUP => b.nxdup

def setInf [Build] (b : Block) (w : Inf) (v : Int) : Block :=
  match w with
  | .ZBTYPE => { b with btype := v, btver := ZVERS,
                        bthdr := if Build.LFS then LFSHDR else b.bthdr }
  | .ZBTVER => b
  | .ZMISC => { b with misc := v }
  | .ZNXBLK => { b with nxblk := v }
  | .ZNKEYS => { b with nkeys := v }
  | .ZNBLKS => { b with nblks := v }
  | .ZNXDUP => { b with nxdup := v }

-- The loop of `bputky` that makes room: where it stops, and the block then.
def makeRoom (ke : KeyEnt) : Nat → Block → Nat × Block
  | 0, b => (0, b)
  | i + 1, b =>
      if strcmp ke.key (b.keyblk i).key ≤ 0 then
        makeRoom ke i
          { b with keyblk := Function.update b.keyblk (i + 1 : Int) (b.keyblk i),
                   lnkblk := Function.update b.lnkblk (i + 2 : Int) (b.lnkblk (i + 1 : Int)) }
      else (i + 1, b)

def setKey (b : Block) (i : Int) (ke : KeyEnt) : Block :=
  { b with keyblk := Function.update b.keyblk i ke }

def setLnk (b : Block) (i l : Int) : Block :=
  { b with lnkblk := Function.update b.lnkblk i l }

-- `bputky` on a block that is neither empty nor full, once the position is known.
def placeKey (b : Block) (i : Nat) (ke : KeyEnt) (link1 link2 : Int) : Block :=
  let b := if i = 0 then b.setLnk 1 (b.lnkblk 0) else b
  let b := b.setKey i ke
  if link1 = ZNULL ∧ link2 = ZNULL then (b.setLnk i ZNULL).setLnk (i + 1) ZNULL
  else
    let b := if i = 0 then b.setLnk 0 link1 else b
    if 0 ≤ link2 then b.setLnk (i + 1) link2 else b

def putky (b : Block) (ke : KeyEnt) (link1 link2 : Int) : Block :=
  let b :=
    if b.nkeys = 0 then ((b.setKey 0 ke).setLnk 0 link1).setLnk 1 link2
    else if link1 = ZNULL ∧ link2 ≠ ZNULL then b.placeKey b.nkeys.toNat ke link1 link2
    else
      let r := makeRoom ke b.nkeys.toNat b
      r.2.placeKey r.1 ke link1 link2
  { b with nkeys := b.nkeys + 1 }

def closeGap : Nat → Int → Block → Block
  | 0, _, b => b
  | n + 1, i, b =>
      closeGap n (i + 1)
        { b with keyblk := Function.update b.keyblk i (b.keyblk (i + 1)),
                 lnkblk := Function.update b.lnkblk (i + 1) (b.lnkblk (i + 2)) }

def remky (b : Block) (pos : Int) : Block :=
  let b := { b with nkeys := b.nkeys - 1 }
  b.closeGap (b.nkeys - pos).toNat pos

def repky (b : Block) (loc : Int) (ke : KeyEnt) (link1 link2 : Int) : Block :=
  ((b.setKey loc ke).setLnk loc link1).setLnk (loc + 1) link2

def copyKeys (f : Block) (inc : Int) : Nat → Int → Int → Block → Block
  | 0, _, _, t => t
  | n + 1, i, j, t =>
      copyKeys f inc n (i + 1) (j + 1) ((t.setKey i (f.keyblk j)).setLnk (i + inc) (f.lnkblk j))

-- The copy of `bcpybk`, `n` keys of `f` from `fs` to `t` at `ts`.
def cpybk (t f : Block) (ts fs : Int) (n : Nat) : Block :=
  (copyKeys f (if ts = 0 then 0 else 1) n ts fs t).setLnk (ts + n) (f.lnkblk (fs + n))

-- The binary search of `bsrhbk`: the last probe and its comparison.
def search (b : Block) (k : Key) : Nat → (lo hi md result : Int) → Int × Int
  | 0, _, _, md, result => (md, result)
  | n + 1, lo, hi, md, result =>
      if lo ≤ hi then
        let md := (lo + hi) / 2
        let result := strcmp k (b.keyblk md).key
        if result = 0 ∨ lo = hi then (md, result)
        else if 0 < result then b.search k n (md + 1) hi md result
        else b.search k n lo (md - 1) md result
      else (md, result)

def bytes (b : Block) (i : Int) (n : Nat) : List Byte :=
  (List.range n).map fun j => b.data (i + j)

-- `memcpy(data+i,l,n)` with `n` the length of `l`.
def setBytes (b : Block) (i : Int) (l : List Byte) : Block :=
  { b with data := fun j =>
      if i ≤ j ∧ j < i + l.length then l.getD (j - i).toNat 0 else b.data j }

end Block

-- The value a `BTint` holds after wrapping around.
def wrap [Build] (i : Int) : Int := i.bmod (2 ^ (8 * ZBPW))

def rdsz (l : List Byte) : Int := (l.getD 0 0).val + 256 * (l.getD 1 0).val

def leBytes (i : Int) : Nat → List Byte
  | 0 => []
  | n + 1 => Fin.ofNat 256 (i % 256).toNat :: leBytes (i / 256) n

def leVal : List Byte → Int
  | [] => 0
  | b :: l => b.val + 256 * leVal l

def wrsz (i : Int) : List Byte := leBytes i ZDRSZ

def rdint [Build] (l : List Byte) : Int := wrap (leVal (l.take ZBPW))

def wrint [Build] (i : Int) : List Byte := leBytes i ZBPW

def cnvdraddr [Build] (draddr : Int) : Int × Int :=
  (draddr.tdiv ZBLKSZ, Int.land draddr (ZBLKSZ - 1))

def mkdraddr [Build] (dblk offset : Int) : Int := Int.lor (wrap (dblk * ZBLKSZ)) offset

structure DKey where
  key : Key
  deleted : Bool
  val : Int
  flink : Int
  blink : Int
deriving DecidableEq, Repr

-- Width of the `deleted` flag with the padding that aligns the words after it.
def flagSz [Build] : Nat := if Build.LFS then 8 else 4

def sizeofDKey [Build] : Nat := ZKYLEN + flagSz + 3 * ZBPW

def DKey.bytes [Build] (d : DKey) : List Byte :=
  (keycpy d.key ++ List.replicate (ZKYLEN - (keycpy d.key).length) 0) ++
    leBytes (if d.deleted then 1 else 0) flagSz ++
    wrint d.val ++ wrint d.flink ++ wrint d.blink

def DKey.ofBytes [Build] (l : List Byte) : DKey where
  key := (l.take ZKYLEN).takeWhile (· ≠ 0)
  deleted := leVal ((l.drop ZKYLEN).take 4) ≠ 0
  val := rdint (l.drop (ZKYLEN + flagSz))
  flink := rdint (l.drop (ZKYLEN + flagSz + ZBPW))
  blink := rdint (l.drop (ZKYLEN + flagSz + 2 * ZBPW))

end Btlib
