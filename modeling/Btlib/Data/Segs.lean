import Btlib.Dups.Insert
import Btlib.Theory.DoubleLinks

namespace Btlib

variable [Build] {s : St} {b : Block} {blk off i j : Int} {l l' : List Byte} {next next' : Int}

-- The sizes of a build by which the size of a segment fits into its two bytes.
structure SizedData : Prop extends Sized where
  seg : (ZBLKSZ : Int) ≤ 65536

-- A segment of a record, and the bytes it holds.
structure Seg where
  blk : Int
  off : Nat
  bytes : List Byte
deriving DecidableEq

namespace Seg

def size (p : Seg) : Nat := ZDOVRH + p.bytes.length

def addr (p : Seg) : Int := p.blk * ZBLKSZ + (p.off : Int)

def Apart (p q : Seg) : Prop := p.blk = q.blk → p.off + p.size ≤ q.off ∨ q.off + q.size ≤ p.off

theorem size_pos (p : Seg) : 0 < p.size := by
  have hsz : ZDRSZ = 2 := rfl
  unfold size ZDOVRH
  omega

theorem Apart.symm {p q : Seg} (h : p.Apart q) : q.Apart p := fun hb => (h hb.symm).symm

end Seg

-- The address of the first of the segments.
def headAddr : List Seg → Int
  | [] => 0
  | p :: _ => p.addr

-- What the segments take of the block `b`.
def load (b : Int) (ps : List Seg) : Nat := ((ps.filter fun p => p.blk = b).map Seg.size).sum

section Load

variable {p : Seg} {ps qs : List Seg} {c : Int}

theorem load_cons : load c (p :: ps) = (if p.blk = c then p.size else 0) + load c ps := by
  unfold load
  by_cases hp : p.blk = c
  · simp [hp]
  · simp [hp]

theorem load_perm (h : ps.Perm qs) : load c ps = load c qs := by
  unfold load
  exact ((h.filter _).map _).sum_eq

theorem load_eq_zero : load c ps = 0 ↔ ∀ p ∈ ps, p.blk ≠ c := by
  induction ps with
  | nil => simp [load]
  | cons p ps ih =>
      rw [load_cons, Nat.add_eq_zero_iff, ih]
      have := p.size_pos
      by_cases hp : p.blk = c
      · simp [hp, this.ne']
      · simp [hp]

end Load

-- The segment of `l` stands at `off`, and `next` is the address of the one behind it.
structure Block.SegAt (b : Block) (off : Int) (l : List Byte) (next : Int) : Prop where
  size : b.bytes off ZDRSZ = wrsz l.length
  next : b.bytes (off + ZDRSZ) ZBPW = wrint next
  data : b.bytes (off + ZDOVRH) l.length = l

section SegAt

theorem Block.segAt_setBytes (b : Block) (off : Int) (l : List Byte) (next : Int) :
    (b.setBytes off (wrsz l.length ++ wrint next ++ l)).SegAt off l next := by
  have ho := ZDOVRH_eq
  have htot : ((wrsz l.length ++ wrint next ++ l).length : Int) = ZDRSZ + ZBPW + l.length := by
    simp only [List.length_append, length_wrsz, length_wrint]
    push_cast
    ring
  refine ⟨?_,?_,?_⟩
  · rw [bytes_setBytes _ le_rfl (by omega)]
    simp
  · rw [bytes_setBytes _ (by omega) (by omega)]
    have hn : (off + (ZDRSZ : Nat) - off).toNat = ZDRSZ := by omega
    rw [hn, List.append_assoc, List.drop_append_of_le_length (by simp), List.drop_of_length_le (by simp),
      List.nil_append, List.take_append_of_le_length (by simp), List.take_of_length_le (by simp)]
  · rw [bytes_setBytes _ (by omega) (by omega)]
    have hn : (off + (ZDOVRH : Nat) - off).toNat = (wrsz l.length ++ wrint next).length := by
      simp only [List.length_append, length_wrsz, length_wrint]
      omega
    rw [hn, List.drop_left, List.take_of_length_le le_rfl]

theorem Block.SegAt.congr {b' : Block} (h : b.SegAt off l next)
    (hd : ∀ k, off ≤ k → k < off + (ZDOVRH + l.length : Nat) → b'.data k = b.data k) : b'.SegAt off l next := by
  have ho := ZDOVRH_eq
  have hr : ∀ (k : Int) (n : Nat), off ≤ k → k + n ≤ off + (ZDOVRH + l.length : Nat) →
      b'.bytes k n = b.bytes k n := by
    intro k n hk hkn
    rw [Block.bytes_eq, Block.bytes_eq]
    refine List.map_congr_left fun m hm => ?_
    have hm := List.mem_range.1 hm
    exact hd _ (by omega) (by omega)
  push_cast at hr
  refine ⟨?_,?_,?_⟩
  · rw [hr _ _ le_rfl (by omega), h.size]
  · rw [hr _ _ (by omega) (by omega), h.next]
  · rw [hr _ _ (by omega) (by omega), h.data]

theorem Block.SegAt.setBytes (h : b.SegAt off l next) (i : Int) (l' : List Byte)
    (hij : off + (ZDOVRH + l.length : Nat) ≤ i ∨ i + l'.length ≤ off) : (b.setBytes i l').SegAt off l next := by
  refine h.congr fun k h0 h1 => ?_
  simp only [Block.setBytes]
  rw [if_neg (by omega)]

variable (hz : SizedData)
include hz

theorem ZDATSZ_lt : (ZDATSZ : Int) < 65536 := by
  have h1 := hz.seg
  have h2 := ZBLKSZ_pos
  have h3 : 0 < ZINFSZ * ZBPW := Nat.mul_pos (by decide) hz.word
  unfold ZDATSZ
  omega

theorem Block.SegAt.rdsz (h : b.SegAt off l next) (hl : l.length ≤ ZDATSZ) : rdsz (b.bytes off ZDRSZ) = l.length := by
  have := ZDATSZ_lt hz
  rw [h.size, ← List.append_nil (wrsz l.length)]
  exact rdsz_wrsz (by omega) (by omega) []

omit hz in
theorem Block.SegAt.rdint (h : b.SegAt off l next) (hf : Fits next) : rdint (b.bytes (off + ZDRSZ) ZBPW) = next := by
  rw [h.next, ← List.append_nil (wrint next)]
  exact rdint_wrint hf []

end SegAt

end Btlib
