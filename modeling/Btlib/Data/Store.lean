import Btlib.Data.Segs

namespace Btlib

open DoubleLinks

variable [Build] {s s' s'' : St} {fs fs' D D' os : List Int} {ps qs : List Seg} {p q : Seg} {b c blk : Int} {n : Nat}
  {data : List Byte} {next prev : Int}

-- A data block of which `n` bytes are taken.
structure IsData (b : Block) (n : Nat) : Prop where
  type : b.btype = ZDATA
  taken : (n : Int) ≤ b.nkeys
  room : b.nkeys ≤ ZDATSZ
  misc : b.misc = ZDATSZ - n
  least : b.nxdup = ZDSGMN

-- `D` are the data blocks of the current root, with the segments `ps`, and `os` the other blocks in use.
structure Stored (s : St) (fs D os : List Int) (ps : List Seg) : Prop where
  store : Store s fs (D ++ os)
  size : s.disk.size * ZBLKSZ ≤ BTINT_MAX
  super : ZSUPER ∈ os
  root : s.ctx.super.scroot ∈ os
  block : ∀ b ∈ D, IsData (s.disk.block b) (load b ps)
  strung : Strung (fun b => (s.disk.block b).nxblk) (fun b => (s.disk.block b).nblks) ZNULL D
  head : (s.disk.block s.ctx.super.scroot).nxblk = ZNULL ∨
    (s.disk.block s.ctx.super.scroot).nxblk ∈ D ∧
      (s.disk.block (s.disk.block s.ctx.super.scroot).nxblk).nblks = ZNULL
  seg : ∀ p ∈ ps, p.blk ∈ D ∧ ((p.off + p.size : Nat) : Int) ≤ (s.disk.block p.blk).nkeys
  apart : ps.Pairwise Seg.Apart

-- The segment is in the file, and `next` is the address of the one behind it.
def Seg.At (s : St) (p : Seg) (next : Int) : Prop := (s.disk.block p.blk).SegAt p.off p.bytes next

-- What is done leaves the segments as they are.
def Spared (s s' : St) (ps : List Seg) : Prop := ∀ p ∈ ps, ∀ next, p.At s next → p.At s' next

-- What is done on data blocks leaves the rest alone but for the block the root names as the first.
structure Aside (s s' : St) (os : List Int) : Prop where
  ctx : s'.ctx = { s.ctx with super := s'.ctx.super }
  root : s'.ctx.super.scroot = s.ctx.super.scroot
  mode : s'.ctx.super.smode = s.ctx.super.smode
  block : ∀ c ∈ os, ∃ v, s'.disk.block c = { s.disk.block c with nxblk := v }

omit [Build] in
theorem Aside.refl (s : St) (os : List Int) : Aside s s os := ⟨rfl,rfl,rfl,fun _ _ => ⟨_,rfl⟩⟩

omit [Build] in
theorem Aside.trans (h : Aside s s' os) (h' : Aside s' s'' os) : Aside s s'' os := by
  refine ⟨?_,h'.root.trans h.root,h'.mode.trans h.mode,fun c hc => ?_⟩
  · rw [h'.ctx, h.ctx]
  · obtain ⟨v,hv⟩ := h.block c hc
    obtain ⟨v',hv'⟩ := h'.block c hc
    exact ⟨v',by rw [hv', hv]⟩

theorem Spared.trans (h : Spared s s' ps) (h' : Spared s' s'' ps) : Spared s s'' ps :=
  fun p hp next hat => h' p hp next (h p hp next hat)

theorem Spared.subset (h : Spared s s' ps) (hq : ∀ q ∈ qs, q ∈ ps) : Spared s s' qs := fun q hmem => h q (hq q hmem)

namespace Stored

theorem perm (h : Stored s fs D os ps) (hp : ps.Perm qs) : Stored s fs D os qs where
  store := h.store
  size := h.size
  super := h.super
  root := h.root
  block b hb := load_perm hp ▸ h.block b hb
  strung := h.strung
  head := h.head
  seg q hq := h.seg q (hp.mem_iff.2 hq)
  apart := (hp.pairwise_iff fun {_ _} hab => hab.symm).1 h.apart

theorem not_mem_os (h : Stored s fs D os ps) (hb : b ∈ D) : b ∉ os := fun ho =>
  (List.nodup_append.1 h.store.nodup_used).2.2 b hb b ho rfl

theorem nodup (h : Stored s fs D os ps) : D.Nodup := (List.nodup_append.1 h.store.nodup_used).1

theorem has (h : Stored s fs D os ps) (hb : b ∈ D) : s.disk.Has b := h.store.has_used (List.mem_append_left _ hb)

theorem has_root (h : Stored s fs D os ps) : s.disk.Has s.ctx.super.scroot :=
  h.store.has_used (List.mem_append_right _ h.root)

theorem pos (h : Stored s fs D os ps) (hb : b ∈ D) : 0 < b := by
  have h0 := (h.has hb).1
  have hne : b ≠ 0 := fun h0 => h.not_mem_os hb (h0 ▸ h.super)
  omega

theorem null_notMem (h : Stored s fs D os ps) : ZNULL ∉ D := fun h0 => absurd (h.pos h0) (by decide)

theorem ne_null (h : Stored s fs D os ps) (hb : b ∈ D) : b ≠ ZNULL := (h.has hb).ne_null

theorem ne_root (h : Stored s fs D os ps) (hb : b ∈ D) : b ≠ s.ctx.super.scroot := fun hr =>
  h.not_mem_os hb (hr ▸ h.root)

theorem fits_block (hz : SizedData) (h : Stored s fs D os ps) (hmem : b ∈ D) {i : Int} (h0 : 0 ≤ i) (h1 : i < ZBLKSZ) :
    Fits (b * ZBLKSZ + i) := by
  have hlt := (h.has hmem).2
  have hle : (b + 1) * (ZBLKSZ : Int) ≤ s.disk.size * ZBLKSZ :=
    Int.mul_le_mul_of_nonneg_right (by omega) (Int.natCast_nonneg _)
  have hnn : 0 ≤ b * (ZBLKSZ : Int) := mul_nonneg (h.pos hmem).le (Int.natCast_nonneg _)
  rw [add_mul, one_mul] at hle
  have := h.size
  exact fits_of_le hz.word (by omega) (by omega)

theorem seg_le (h : Stored s fs D os ps) (hp : p ∈ ps) : p.off + p.size ≤ ZDATSZ := by
  obtain ⟨hD,hle⟩ := h.seg p hp
  have := (h.block _ hD).room
  omega

theorem off_lt (h : Stored s fs D os ps) (hp : p ∈ ps) : ((p.off : Nat) : Int) < ZBLKSZ := by
  have h1 := h.seg_le hp
  have h2 := ZDATSZ_le
  have h3 := p.size_pos
  omega

theorem length_le (h : Stored s fs D os ps) (hp : p ∈ ps) : p.bytes.length ≤ ZDATSZ := by
  have h1 := h.seg_le hp
  unfold Seg.size at h1
  omega

theorem fits_addr (hz : SizedData) (h : Stored s fs D os ps) (hp : p ∈ ps) : Fits p.addr :=
  h.fits_block hz (h.seg p hp).1 (Int.natCast_nonneg _) (h.off_lt hp)

theorem addr_pos (h : Stored s fs D os ps) (hp : p ∈ ps) : 0 < p.addr := by
  have h1 := mul_pos (h.pos (h.seg p hp).1) (Int.natCast_pos.2 ZBLKSZ_pos)
  unfold Seg.addr
  omega

theorem cnvdraddr_addr (h : Stored s fs D os ps) (hp : p ∈ ps) : cnvdraddr p.addr = (p.blk, (p.off : Int)) :=
  cnvdraddr_add (h.pos (h.seg p hp).1).le (Int.natCast_nonneg _) (h.off_lt hp)

theorem mkdraddr_addr (hz : SizedData) (h : Stored s fs D os ps) (hp : p ∈ ps) :
    mkdraddr p.blk (p.off : Int) = p.addr := by
  have hD := (h.seg p hp).1
  have hfits : Fits (p.blk * ZBLKSZ) := by
    have := h.fits_block hz hD (i := 0) le_rfl (Int.natCast_pos.2 ZBLKSZ_pos)
    rwa [add_zero] at this
  exact mkdraddr_eq (h.pos hD).le hfits (Int.natCast_nonneg _) (h.off_lt hp)

theorem fits_zero (hz : SizedData) : Fits 0 := fits_of_le hz.word (by decide) (le_trans (by omega) hz.block)

theorem fits_headAddr (hz : SizedData) (h : Stored s fs D os ps) (hq : ∀ q ∈ qs, q ∈ ps) : Fits (headAddr qs) := by
  cases qs with
  | nil => exact fits_zero hz
  | cons q qs => exact h.fits_addr hz (hq q List.mem_cons_self)

theorem keep (h : Stored s fs D os ps) (hstore : Store s' fs (D ++ os)) (hsize : s'.disk.size = s.disk.size)
    (hroot : s'.ctx.super.scroot = s.ctx.super.scroot)
    (hlink : ∀ c, (s'.disk.block c).nxblk = (s.disk.block c).nxblk ∧ (s'.disk.block c).nblks = (s.disk.block c).nblks)
    (hblock : ∀ b ∈ D, IsData (s'.disk.block b) (load b qs))
    (hseg : ∀ p ∈ qs, p.blk ∈ D ∧ ((p.off + p.size : Nat) : Int) ≤ (s'.disk.block p.blk).nkeys)
    (hapart : qs.Pairwise Seg.Apart) : Stored s' fs D os qs := by
  refine ⟨hstore,hsize ▸ h.size,h.super,hroot ▸ h.root,hblock,?_,?_,hseg,hapart⟩
  · exact h.strung.congr (fun b _ => (hlink b).1) fun b _ => (hlink b).2
  · rw [hroot, (hlink _).1, (hlink _).2]
    exact h.head

theorem put (h : Stored s fs D os ps) (hb : b ∈ D) (blk : Block) (qs : List Seg) (hnx : blk.nxblk = (s.disk.block b).nxblk)
    (hnb : blk.nblks = (s.disk.block b).nblks) (hdata : IsData blk (load b qs))
    (hload : ∀ c ∈ D, c ≠ b → load c qs = load c ps)
    (hseg : ∀ p ∈ qs, p.blk = b ∧ ((p.off + p.size : Nat) : Int) ≤ blk.nkeys ∨ p.blk ≠ b ∧ p ∈ ps)
    (hapart : qs.Pairwise Seg.Apart) : Stored { s with disk := s.disk.put b blk } fs D os qs ∧
      Aside s { s with disk := s.disk.put b blk } os := by
  refine ⟨h.keep (h.store.put (List.mem_append_left _ hb) _) rfl rfl (fun c => ?_) (fun c hc => ?_) (fun q hq => ?_)
    hapart,rfl,rfl,rfl,fun c hc => ?_⟩
  · by_cases hcb : c = b
    · subst hcb
      simp only [Disk.block_put, Function.update_self]
      exact ⟨hnx,hnb⟩
    · simp only [Disk.block_put, Function.update_of_ne hcb, and_self]
  · by_cases hcb : c = b
    · subst hcb
      simpa only [Disk.block_put, Function.update_self] using hdata
    · simp only [Disk.block_put, Function.update_of_ne hcb, hload c hc hcb]
      exact h.block c hc
  · rcases hseg q hq with ⟨rfl,hle⟩ | ⟨hne,hp⟩
    · simp only [Disk.block_put, Function.update_self]
      exact ⟨hb,hle⟩
    · simp only [Disk.block_put, Function.update_of_ne hne]
      exact h.seg q hp
  · have hne : c ≠ b := fun hcb => h.not_mem_os hb (hcb ▸ hc)
    exact ⟨(s.disk.block c).nxblk,by simp only [Disk.block_put, Function.update_of_ne hne]⟩

theorem insdat (h : Stored s fs D os ps) (hD : b ∈ D) (data : List Byte) (prev : Int)
    (hroom : (s.disk.block b).nkeys + (ZDOVRH + data.length : Nat) ≤ ZDATSZ) :
    ∃ s' p, exec (insdat b data prev) s = .done ((s.disk.block b).nkeys, s') ∧ p.blk = b ∧
      ((p.off : Nat) : Int) = (s.disk.block b).nkeys ∧ p.bytes = data ∧ Stored s' fs D os (p :: ps) ∧ p.At s' prev ∧
      Spared s s' ps ∧ Aside s s' os := by
  have hdata := h.block b hD
  have hoff : (((s.disk.block b).nkeys.toNat : Nat) : Int) = (s.disk.block b).nkeys :=
    Int.toNat_of_nonneg (le_trans (Int.natCast_nonneg _) hdata.taken)
  obtain ⟨p,hp⟩ : ∃ p : Seg, p = ⟨b,(s.disk.block b).nkeys.toNat,data⟩ := ⟨_,rfl⟩
  have hblk : p.blk = b := congrArg Seg.blk hp
  have hpoff : ((p.off : Nat) : Int) = (s.disk.block b).nkeys := by rw [hp, hoff]
  have hbytes : p.bytes = data := congrArg Seg.bytes hp
  have hsize : p.size = ZDOVRH + data.length := by rw [Seg.size, hbytes]
  have hload : load b (p :: ps) = ZDOVRH + data.length + load b ps := by rw [load_cons, if_pos hblk, hsize]
  have hput := h.put hD ((s.disk.block b).insSeg data prev) (p :: ps) rfl rfl ⟨hdata.type,?_,?_,?_,hdata.least⟩
    (fun c _ hc => ?_) (fun q hq => ?_) (List.pairwise_cons.2 ⟨fun q hq hpq => ?_,h.apart⟩)
  · refine ⟨_,p,exec_insdat (h.has hD) data prev,hblk,hpoff,hbytes,hput.1,?_,fun q hq next hat => ?_,hput.2⟩
    · have hat := Block.segAt_setBytes (s.disk.block b) (s.disk.block b).nkeys data prev
      unfold Seg.At
      rw [hblk, hpoff, hbytes]
      simp only [Disk.block_put, Function.update_self]
      exact ⟨hat.size,hat.next,hat.data⟩
    · unfold Seg.At at hat ⊢
      by_cases hqb : q.blk = b
      · rw [hqb] at hat ⊢
        simp only [Disk.block_put, Function.update_self]
        have hle := (h.seg q hq).2
        rw [hqb] at hle
        have hsz : q.size = ZDOVRH + q.bytes.length := rfl
        have hat' := hat.setBytes (s.disk.block b).nkeys (wrsz data.length ++ wrint prev ++ data)
          (Or.inl (by omega))
        exact ⟨hat'.size,hat'.next,hat'.data⟩
      · simpa only [Disk.block_put, Function.update_of_ne hqb] using hat
  · change (load b (p :: ps) : Int) ≤ (s.disk.block b).nkeys + ZDOVRH + data.length
    have := hdata.taken
    rw [hload]
    push_cast
    omega
  · change (s.disk.block b).nkeys + ZDOVRH + data.length ≤ ZDATSZ
    push_cast at hroom
    omega
  · change (s.disk.block b).misc - (ZDOVRH + data.length) = _
    rw [hdata.misc, hload]
    push_cast
    ring
  · rw [load_cons, if_neg (fun heq => hc (heq.symm.trans hblk)), Nat.zero_add]
  · change _ ∧ _ ≤ (s.disk.block b).nkeys + ZDOVRH + data.length ∨ _
    rcases List.mem_cons.1 hq with rfl | hq
    · refine Or.inl ⟨hblk,?_⟩
      push_cast
      rw [hpoff, hsize]
      push_cast
      omega
    · by_cases hqb : q.blk = b
      · have hle := (h.seg q hq).2
        rw [hqb] at hle
        exact Or.inl ⟨hqb,by omega⟩
      · exact Or.inr ⟨hqb,hq⟩
  · have hle := (h.seg q hq).2
    rw [← hpq, hblk] at hle
    exact Or.inr (by omega)

end Stored

end Btlib
