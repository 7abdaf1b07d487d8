import Btlib.Dups.Bytes
import Btlib.Machine.Store

namespace Btlib

variable [Build] {s : St} {b : Block} {blk i j off : Int} {d e : DKey}

namespace Block

omit [Build] in
theorem bytes_eq (b : Block) (i : Int) (n : Nat) :
    b.bytes i n = (List.range n).map fun j : Nat => b.data (i + (j : Int)) := by
  simp only [bytes, List.bind_eq_flatMap, List.pure_def]
  rw [← List.map_eq_flatMap, List.map_map]
  rfl

omit [Build] in
theorem length_bytes (b : Block) (i : Int) (n : Nat) : (b.bytes i n).length = n := by
  simp [bytes_eq]

omit [Build] in
theorem bytes_setBytes (b : Block) {i j : Int} {l : List Byte} {n : Nat} (h0 : i ≤ j)
    (h1 : j + n ≤ i + l.length) : (b.setBytes i l).bytes j n = (l.drop (j - i).toNat).take n := by
  refine List.ext_getElem ?_ fun k hk hk' => ?_
  · simp only [length_bytes, List.length_take, List.length_drop]
    omega
  · have hkn : k < n := by simpa [length_bytes] using hk
    simp only [bytes_eq, setBytes, List.getElem_map, List.getElem_range, List.getElem_take,
      List.getElem_drop]
    rw [if_pos (by omega), List.getD_eq_getElem _ _ (by omega)]
    congr 1
    omega

omit [Build] in
theorem bytes_setBytes_self (b : Block) (i : Int) (l : List Byte) : (b.setBytes i l).bytes i l.length = l := by
  rw [bytes_setBytes b le_rfl le_rfl]
  simp

omit [Build] in
theorem bytes_setBytes_of_disjoint (b : Block) {i j : Int} {l : List Byte} {n : Nat}
    (h : j + n ≤ i ∨ i + l.length ≤ j) : (b.setBytes i l).bytes j n = b.bytes j n := by
  refine List.ext_getElem (by simp only [length_bytes]) fun k hk hk' => ?_
  have hkn : k < n := by simpa [length_bytes] using hk
  simp only [bytes_eq, setBytes, List.getElem_map, List.getElem_range]
  rw [if_neg (by omega)]

end Block

-- The bytes of a duplicate with the words before it.
def entSz : Nat := ZDOVRH + sizeofDKey

-- The sizes of a build by which an entry fits into a block and an address into a word.
structure Sized : Prop where
  word : 0 < ZBPW
  entry : entSz ≤ ZDATSZ
  size : (sizeofDKey : Int) < 65536
  block : (ZBLKSZ : Int) ≤ BTINT_MAX
  fuel : 2 ≤ FUEL

-- The entry `d` stands at `off`.
structure Block.Ent (b : Block) (off : Int) (d : DKey) : Prop where
  size : b.bytes off ZDRSZ = wrsz sizeofDKey
  next : b.bytes (off + ZDRSZ) ZBPW = wrint 0
  data : b.bytes (off + ZDOVRH) sizeofDKey = d.bytes

def Block.putEnt (b : Block) (off : Int) (d : DKey) : Block :=
  ((b.setBytes (off + ZDOVRH) d.bytes).setBytes off (wrsz sizeofDKey)).setBytes (off + ZDRSZ) (wrint 0)

section Ent

omit [Build] in
@[simp] theorem length_wrsz (i : Int) : (wrsz i).length = ZDRSZ := length_leBytes i ZDRSZ

@[simp] theorem length_wrint (i : Int) : (wrint i).length = ZBPW := length_leBytes i ZBPW

theorem ZDOVRH_eq : ((ZDOVRH : Nat) : Int) = ZDRSZ + ZBPW := by simp [ZDOVRH]

theorem entSz_eq : ((entSz : Nat) : Int) = ZDRSZ + ZBPW + sizeofDKey := by simp [entSz, ZDOVRH]

theorem Block.ent_putEnt (b : Block) (off : Int) (hd : d.key.length ≤ ZKYLEN - 1) :
    (b.putEnt off d).Ent off d := by
  have hlen := DKey.length_bytes hd
  have ho := ZDOVRH_eq
  refine ⟨?_,?_,?_⟩
  · rw [putEnt, bytes_setBytes_of_disjoint _ (Or.inl le_rfl)]
    exact bytes_setBytes_self _ off (wrsz sizeofDKey)
  · have := bytes_setBytes_self ((b.setBytes (off + ZDOVRH) d.bytes).setBytes off (wrsz sizeofDKey))
      (off + ZDRSZ) (wrint 0)
    rwa [length_wrint] at this
  · rw [putEnt, bytes_setBytes_of_disjoint, bytes_setBytes_of_disjoint]
    · have := bytes_setBytes_self b (off + ZDOVRH) d.bytes
      rwa [hlen] at this
    · right
      rw [length_wrsz]
      omega
    · right
      rw [length_wrint]
      omega

theorem Block.Ent.putEnt (h : b.Ent j e) (hd : d.key.length ≤ ZKYLEN - 1)
    (hij : j + entSz ≤ off ∨ off + entSz ≤ j) : (b.putEnt off d).Ent j e := by
  have hlen := DKey.length_bytes hd
  have ho := ZDOVRH_eq
  have hs := entSz_eq
  have hr : ∀ (k : Int) (n : Nat), j ≤ k → k + n ≤ j + entSz → (b.putEnt off d).bytes k n = b.bytes k n := by
    intro k n hk hkn
    rw [Block.putEnt, bytes_setBytes_of_disjoint, bytes_setBytes_of_disjoint, bytes_setBytes_of_disjoint]
    · rw [hlen]
      omega
    · rw [length_wrsz]
      omega
    · rw [length_wrint]
      omega
  refine ⟨?_,?_,?_⟩
  · rw [hr _ _ le_rfl (by omega), h.size]
  · rw [hr _ _ (by omega) (by omega), h.next]
  · rw [hr _ _ (by omega) (by omega), h.data]

-- What `insdat` writes behind the last segment.
theorem Block.ent_setBytes (b : Block) (off : Int) (hd : d.key.length ≤ ZKYLEN - 1) :
    (b.setBytes off (wrsz sizeofDKey ++ wrint 0 ++ d.bytes)).Ent off d := by
  have hlen := DKey.length_bytes hd
  have ho := ZDOVRH_eq
  have htot : ((wrsz sizeofDKey ++ wrint 0 ++ d.bytes).length : Int) = ZDRSZ + ZBPW + sizeofDKey := by
    simp only [List.length_append, length_wrsz, length_wrint, hlen]
    push_cast
    ring
  refine ⟨?_,?_,?_⟩
  · rw [bytes_setBytes _ le_rfl (by omega)]
    simp
  · rw [bytes_setBytes _ (by omega) (by omega)]
    have hn : (off + (ZDRSZ : Nat) - off).toNat = ZDRSZ := by omega
    rw [hn, List.append_assoc, List.drop_append_of_le_length (by simp), List.drop_of_length_le (by simp),
      List.nil_append, List.take_append_of_le_length (by simp), List.take_of_length_le (by simp)]
  · rw [bytes_setBytes _ (by omega) (by omega)]
    have hn : (off + (ZDOVRH : Nat) - off).toNat = (wrsz sizeofDKey ++ wrint 0).length := by
      simp only [List.length_append, length_wrsz, length_wrint]
      omega
    rw [hn, List.drop_left, List.take_of_length_le hlen.le]

theorem Block.Ent.setBytes (h : b.Ent j e) {l : List Byte}
    (hij : j + entSz ≤ off ∨ off + l.length ≤ j) : (b.setBytes off l).Ent j e := by
  have ho := ZDOVRH_eq
  have hs := entSz_eq
  have hr : ∀ (k : Int) (n : Nat), j ≤ k → k + n ≤ j + entSz → (b.setBytes off l).bytes k n = b.bytes k n := by
    intro k n hk hkn
    rw [bytes_setBytes_of_disjoint]
    omega
  refine ⟨?_,?_,?_⟩
  · rw [hr _ _ le_rfl (by omega), h.size]
  · rw [hr _ _ (by omega) (by omega), h.next]
  · rw [hr _ _ (by omega) (by omega), h.data]

end Ent

section Exec

omit [Build] in
theorem slice_self (l : List Byte) {n : Nat} (hn : n = l.length) : slice l 0 n = l := by
  subst hn
  have hslice : slice l 0 l.length = (List.range l.length).map fun j : Nat => l.getD j 0 := by
    simp only [slice, List.bind_eq_flatMap, List.pure_def, zero_add]
    rw [← List.map_eq_flatMap, List.map_map]
    rfl
  rw [hslice]
  refine List.ext_getElem (by simp) fun k hk hk' => ?_
  rw [List.getElem_map, List.getElem_range, List.getD_eq_getElem _ _ hk']

theorem sizeofDKey_pos : 0 < sizeofDKey := by
  have hk : ZKYLEN = 32 := rfl
  unfold sizeofDKey
  omega

theorem rdsz_ent (hb : Sized) (h : b.Ent off d) : rdsz (b.bytes off ZDRSZ) = sizeofDKey := by
  rw [h.size, ← List.append_nil (wrsz sizeofDKey)]
  exact rdsz_wrsz (by omega) hb.size []

theorem rdint_ent (hb : Sized) (h : b.Ent off d) : rdint (b.bytes (off + ZDRSZ) ZBPW) = 0 := by
  have hmax : (0 : Int) ≤ BTINT_MAX := le_trans (by omega) hb.block
  rw [h.next, ← List.append_nil (wrint 0)]
  exact rdint_wrint (fits_of_le hb.word (by decide) hmax) []

variable (hb : Sized) (hblk : s.disk.Has blk) (hpos : 0 < blk) (h0 : 0 ≤ off) (h1 : off < ZBLKSZ)
include hb hblk hpos h0 h1

theorem exec_getdkey (htype : (s.disk.block blk).btype = ZDUP) (he : (s.disk.block blk).Ent off d)
    (hd : d.Fits) : exec (getdkey (blk * ZBLKSZ + off)) s = .done (some d, s) := by
  obtain ⟨n,hn⟩ : ∃ n, FUEL = n + 2 := ⟨FUEL - 2,by have := hb.fuel; omega⟩
  have hne : blk * (ZBLKSZ : Int) + off ≠ 0 := by
    have := Int.mul_pos hpos (Int.natCast_pos.2 ZBLKSZ_pos)
    omega
  have hsz := sizeofDKey_pos
  have hlen := DKey.length_bytes hd.short
  simp [getdkey, bseldt, hn, bseldtLoop, cnvdraddr_add hpos.le h0 h1, exec_bgtinf hblk, htype, hne, hsz,
    Disk.read_eq hblk, rdsz_ent hb he, he.data, hlen, DKey.ofBytes_bytes hd]

theorem exec_putdkey (htype : (s.disk.block blk).btype = ZDUP) (he : (s.disk.block blk).Ent off d)
    (hd : e.key.length ≤ ZKYLEN - 1) : exec (putdkey (blk * ZBLKSZ + off) e) s =
      .done (s.ctx.err.qerror, { s with disk := s.disk.put blk ((s.disk.block blk).putEnt off e) }) := by
  obtain ⟨n,hn⟩ : ∃ n, FUEL = n + 2 := ⟨FUEL - 2,by have := hb.fuel; omega⟩
  have hne : blk * (ZBLKSZ : Int) + off ≠ 0 := by
    have := Int.mul_pos hpos (Int.natCast_pos.2 ZBLKSZ_pos)
    omega
  have hsz := sizeofDKey_pos
  have hlen := DKey.length_bytes hd
  have hslice : slice e.bytes 0 sizeofDKey = e.bytes := slice_self _ hlen.symm
  have hsize := rdsz_ent hb he
  have hnext : rdint ((s.disk.block blk).bytes (off + 2) ZBPW) = 0 := rdint_ent hb he
  simp [putdkey, bupddt, hn, bupddtLoop, cnvdraddr_add hpos.le h0 h1, hblk, htype, hne, hsz.ne',
    Disk.read_eq hblk, hsize, hnext, hlen, getseginfo, hslice, Disk.put_put]
  rfl

end Exec

section Segments

-- The block with one more segment.
def Block.insSeg (b : Block) (data : List Byte) (prev : Int) : Block :=
  { b.setBytes b.nkeys (wrsz data.length ++ wrint prev ++ data) with
    nkeys := b.nkeys + ZDOVRH + data.length
    misc := b.misc - (ZDOVRH + data.length) }

theorem exec_insdat (hblk : s.disk.Has blk) (data : List Byte) (prev : Int) :
    exec (insdat blk data prev) s = .done ((s.disk.block blk).nkeys,
      { s with disk := s.disk.put blk ((s.disk.block blk).insSeg data prev) }) := by
  simp [insdat, hblk, Disk.read_eq hblk, Disk.put_put]
  rfl

theorem exec_deldat (hblk : s.disk.Has blk) {f : Int}
    (hf : f = (s.disk.block blk).misc + (rdsz ((s.disk.block blk).bytes off ZDRSZ) + ZDOVRH))
    (h0 : 0 ≤ f) (h1 : f < ZDATSZ) : exec (deldat blk off) s =
      .done (0, { s with disk := s.disk.put blk ((s.disk.block blk).setInf .ZMISC f) }) := by
  simp [deldat, hblk, Disk.read_eq hblk, ← hf, h1.ne, h1.le, h0]

-- A word of a neighbour, if there is one.
def Disk.relink (d : Disk) (c : Int) (w : Inf) (v : Int) : Disk :=
  if c = ZNULL then d else d.put c ((d.block c).setInf w v)

theorem exec_relink {c v : Int} {w : Inf} (hc : c = ZNULL ∨ s.disk.Has c) {x : BT β} :
    exec (if c ≠ ZNULL then bstinf c w v >>= fun _ => x else x) s =
      exec x { s with disk := s.disk.relink c w v } := by
  unfold Disk.relink
  by_cases hn : c = ZNULL
  · rw [if_neg (not_not.2 hn), if_pos hn]
  · rw [if_pos hn, if_neg hn, exec_bind, exec_bstinf (hc.resolve_left hn)]
    rfl

omit [Build] in
@[simp] theorem Disk.size_relink [Build] (d : Disk) (c : Int) (w : Inf) (v : Int) :
    (d.relink c w v).size = d.size := by
  unfold relink
  split <;> rfl

-- The root forgets the block where it was the one to insert into.
def Disk.unhead (d : Disk) (root blk : Int) : Disk :=
  if (d.block root).nxdup = blk then d.put root ((d.block root).setInf .ZNXDUP ZNULL) else d

omit [Build] in
@[simp] theorem Disk.size_unhead [Build] (d : Disk) (root c : Int) : (d.unhead root c).size = d.size := by
  unfold unhead
  split <;> rfl

-- The handle after the block has gone to the head of the free list.
def Ctx.freed (c : Ctx) (blk : Int) : Ctx :=
  { c with super := { c.super with sfreep := blk, snfree := c.super.snfree + 1, smod := c.super.smod + 1 } }

@[simp] theorem Disk.has_relink (d : Disk) (c c' : Int) (w : Inf) (v : Int) :
    (d.relink c w v).Has c' ↔ d.Has c' := by
  rw [Has, size_relink, Has]

theorem exec_bmkfre_dup (hblk : s.disk.Has blk) (hroot : s.disk.Has s.ctx.super.scroot)
    (htype : (s.disk.block blk).btype = ZDUP) :
    exec (bmkfre blk) s = .done ((), St.mk (s.ctx.freed blk) ((s.disk.unhead s.ctx.super.scroot blk).put blk
      (((s.disk.unhead s.ctx.super.scroot blk).block blk).setBk ZFREE 0 s.ctx.super.sfreep 0 0 ZNULL))) := by
  unfold Disk.unhead
  by_cases hh : (s.disk.block s.ctx.super.scroot).nxdup = blk
  · simp [bmkfre, hblk, hroot, htype, hh]
    rfl
  · simp [bmkfre, hblk, hroot, htype, hh]
    rfl

-- The neighbours of the block are linked past it.
def Disk.unlink (d : Disk) (blk : Int) : Disk :=
  ((d.put blk (((d.block blk).setInf .ZMISC ZDATSZ).setInf .ZNKEYS 0)).relink (d.block blk).nxblk .ZNBLKS
    (d.block blk).nblks).relink (d.block blk).nblks .ZNXBLK (d.block blk).nxblk

@[simp] theorem Disk.has_unlink (d : Disk) (c c' : Int) : (d.unlink c).Has c' ↔ d.Has c' := by
  rw [unlink, has_relink, has_relink, has_put]

theorem exec_deldat_last (hblk : s.disk.Has blk) (hroot : s.disk.Has s.ctx.super.scroot)
    (hf : (s.disk.block blk).misc + (rdsz ((s.disk.block blk).bytes off ZDRSZ) + ZDOVRH) = ZDATSZ)
    (hn : (s.disk.block blk).nxblk = ZNULL ∨ s.disk.Has (s.disk.block blk).nxblk)
    (hp : (s.disk.block blk).nblks = ZNULL ∨ s.disk.Has (s.disk.block blk).nblks) {d : Disk}
    (hd : d = (s.disk.unlink blk).unhead s.ctx.super.scroot blk)
    (htype : ((s.disk.unlink blk).block blk).btype = ZDUP)
    (hdata : (((d.put blk ((d.block blk).setBk ZFREE 0 s.ctx.super.sfreep 0 0 ZNULL))).block
      s.ctx.super.scroot).nxblk ≠ blk) :
    exec (deldat blk off) s = .done (0, St.mk (s.ctx.freed blk)
      (d.put blk ((d.block blk).setBk ZFREE 0 s.ctx.super.sfreep 0 0 ZNULL))) := by
  unfold deldat
  simp only [exec_bind, exec_brdblk, Disk.read_eq hblk, Prog.Outcome.bind_done, exec_mark, exec_bgtinf,
    Block.getInf_ZMISC, hf, if_true, exec_bstinf, Disk.has_put, hblk, Disk.put_put, Disk.block_put,
    Function.update_self, Block.getInf_ZNBLKS, Block.getInf_ZNXBLK]
  have hn' : (((s.disk.block blk).setInf .ZMISC ZDATSZ).setInf .ZNKEYS 0).nxblk = (s.disk.block blk).nxblk := rfl
  have hp' : (((s.disk.block blk).setInf .ZMISC ZDATSZ).setInf .ZNKEYS 0).nblks = (s.disk.block blk).nblks := rfl
  rw [hn', hp', exec_relink, exec_relink]
  · rw [exec_bind]
    change (exec (bmkfre blk) (St.mk s.ctx (s.disk.unlink blk))).bind _ = _
    have hblk' : (s.disk.unlink blk).Has blk := (Disk.has_unlink _ _ _).2 hblk
    have hroot' : (s.disk.unlink blk).Has s.ctx.super.scroot := (Disk.has_unlink _ _ _).2 hroot
    have hrootd : d.Has s.ctx.super.scroot := by
      rw [hd, Disk.Has, Disk.size_unhead]
      exact hroot'
    rw [exec_bmkfre_dup (s := ⟨s.ctx,s.disk.unlink blk⟩) hblk' hroot' htype]
    dsimp only
    rw [← hd]
    have hscroot : (s.ctx.freed blk).super.scroot = s.ctx.super.scroot := rfl
    simp only [Prog.Outcome.bind_done, exec_bind, exec_get, hscroot, exec_bgtinf, Disk.has_put, hrootd,
      Block.getInf_ZNXBLK, if_neg (Ne.symm hdata), exec_writeThrough, exec_pure]
  · exact hp.imp_right fun h => (Disk.has_relink _ _ _ _ _).2 h
  · exact hn

end Segments

end Btlib
