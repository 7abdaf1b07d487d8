import Btlib.Dups.Segs

namespace Btlib

variable [Build] {s s' : St} {fs fs' D D' os : List Int} {n n' : Int → Nat} {live live' : Finset (Int × Nat)}
  {ent ent' : Int × Nat → DKey} {blk b c : Int} {d : DKey} {p q : Int × Nat} {gone : Prop}

-- A block of duplicates with room for `n` entries taken, `m` of them in use.
structure IsDup (b : Block) (n m : Nat) : Prop where
  type : b.btype = ZDUP
  nkeys : b.nkeys = n * entSz
  room : n * entSz ≤ ZDATSZ
  misc : b.misc = ZDATSZ - m * entSz
  least : b.nxdup = sizeofDKey

-- `D` are the blocks of duplicates of the current root and `os` the other blocks in use; the entry at `p`
-- of `live` is `ent p`.
structure Dups (s : St) (fs D os : List Int) (n : Int → Nat) (live : Finset (Int × Nat))
    (ent : Int × Nat → DKey) : Prop where
  store : Store s fs (D ++ os)
  size : s.disk.size * ZBLKSZ ≤ BTINT_MAX
  super : ZSUPER ∈ os
  root : s.ctx.super.scroot ∈ os
  block : ∀ b ∈ D, IsDup (s.disk.block b) (n b) (live.filter fun p => p.1 = b).card
  nxblk : ∀ b ∈ D, (s.disk.block b).nxblk = ZNULL ∨
    (s.disk.block b).nxblk ∈ D ∧ (s.disk.block (s.disk.block b).nxblk).nblks = b
  nblks : ∀ b ∈ D, (s.disk.block b).nblks = ZNULL ∨
    (s.disk.block b).nblks ∈ D ∧ (s.disk.block (s.disk.block b).nblks).nxblk = b
  head : (s.disk.block s.ctx.super.scroot).nxdup = ZNULL ∨
    (s.disk.block s.ctx.super.scroot).nxdup ∈ D ∧
      (s.disk.block (s.disk.block s.ctx.super.scroot).nxdup).nblks = ZNULL
  data : (s.disk.block s.ctx.super.scroot).nxblk = ZNULL ∨ (s.disk.block s.ctx.super.scroot).nxblk ∈ os
  seg : ∀ p ∈ live, p.1 ∈ D ∧ p.2 < n p.1 ∧
    (s.disk.block p.1).Ent ((p.2 * entSz : Nat) : Int) (ent p) ∧ (ent p).Fits

-- What the operations on duplicates leave alone.
structure Apart (s s' : St) (os : List Int) : Prop where
  ctx : s'.ctx = { s.ctx with super := s'.ctx.super }
  root : s'.ctx.super.scroot = s.ctx.super.scroot
  mode : s'.ctx.super.smode = s.ctx.super.smode
  block : ∀ c ∈ os, ∃ v, s'.disk.block c = { s.disk.block c with nxdup := v }

def addr (p : Int × Nat) : Int := p.1 * ZBLKSZ + ((p.2 * entSz : Nat) : Int)

-- The entry at `p` is the only one in use in its block.
def Only (live : Finset (Int × Nat)) (p : Int × Nat) : Prop := (live.filter fun q => q.1 = p.1).card = 1

-- The entry at `p` is not in use any more: `d` is still to be read there, unless its block is free, as `gone` says.
structure Stale (s : St) (p : Int × Nat) (d : DKey) (gone : Prop) : Prop where
  has : s.disk.Has p.1
  pos : 0 < p.1
  low : ((p.2 * entSz : Nat) : Int) < ZBLKSZ
  left : gone ∧ (s.disk.block p.1).btype ≠ ZDUP ∨ ¬ gone ∧ (s.disk.block p.1).btype = ZDUP ∧
    (s.disk.block p.1).Ent ((p.2 * entSz : Nat) : Int) d ∧ d.Fits

theorem Stale.of_block {s' : St} (h : Stale s p d gone) (hhas : s'.disk.Has p.1) (hb : s'.disk.block p.1 = s.disk.block p.1) :
    Stale s' p d gone := ⟨hhas,h.pos,h.low,hb ▸ h.left⟩

omit [Build] in
theorem Apart.refl (s : St) (os : List Int) : Apart s s os := ⟨rfl,rfl,rfl,fun _ _ => ⟨_,rfl⟩⟩

omit [Build] in
theorem Apart.trans {s'' : St} (h : Apart s s' os) (h' : Apart s' s'' os) : Apart s s'' os := by
  refine ⟨?_,h'.root.trans h.root,h'.mode.trans h.mode,fun c hc => ?_⟩
  · rw [h'.ctx, h.ctx]
  · obtain ⟨v,hv⟩ := h.block c hc
    obtain ⟨v',hv'⟩ := h'.block c hc
    exact ⟨v',by rw [hv', hv]⟩

theorem entSz_pos : 0 < entSz := Nat.add_pos_right _ sizeofDKey_pos

theorem ZDATSZ_le : ZDATSZ ≤ ZBLKSZ := Nat.sub_le _ _

namespace Dups

theorem not_mem_os (h : Dups s fs D os n live ent) (hb : b ∈ D) : b ∉ os := fun ho =>
  (List.nodup_append.1 h.store.nodup_used).2.2 b hb b ho rfl

theorem has (h : Dups s fs D os n live ent) (hb : b ∈ D) : s.disk.Has b :=
  h.store.has_used (List.mem_append_left _ hb)

theorem has_root (h : Dups s fs D os n live ent) : s.disk.Has s.ctx.super.scroot :=
  h.store.has_used (List.mem_append_right _ h.root)

theorem pos (h : Dups s fs D os n live ent) (hb : b ∈ D) : 0 < b := by
  have h0 := (h.has hb).1
  have hne : b ≠ 0 := fun h0 => h.not_mem_os hb (h0 ▸ h.super)
  omega

theorem ne_null (h : Dups s fs D os n live ent) (hb : b ∈ D) : b ≠ ZNULL := by
  have := h.pos hb
  change b ≠ -1
  omega

theorem ne_root (h : Dups s fs D os n live ent) (hb : b ∈ D) : b ≠ s.ctx.super.scroot := fun hr =>
  h.not_mem_os hb (hr ▸ h.root)

theorem fits_block (hb : Sized) (h : Dups s fs D os n live ent) (hmem : b ∈ D) {i : Int} (h0 : 0 ≤ i)
    (h1 : i < ZBLKSZ) : Fits (b * ZBLKSZ + i) := by
  have hlt := (h.has hmem).2
  have hle : (b + 1) * (ZBLKSZ : Int) ≤ s.disk.size * ZBLKSZ :=
    Int.mul_le_mul_of_nonneg_right (by omega) (Int.natCast_nonneg _)
  have hnn : 0 ≤ b * (ZBLKSZ : Int) := mul_nonneg (h.pos hmem).le (Int.natCast_nonneg _)
  rw [add_mul, one_mul] at hle
  have := h.size
  exact fits_of_le hb.word (by omega) (by omega)

theorem off_lt (h : Dups s fs D os n live ent) (hp : p ∈ live) :
    ((p.2 * entSz : Nat) : Int) + entSz ≤ ZDATSZ := by
  obtain ⟨hD,hlt,-,-⟩ := h.seg p hp
  have hroom := (h.block p.1 hD).room
  have hle : (p.2 + 1) * entSz ≤ n p.1 * entSz := Nat.mul_le_mul_right _ hlt
  rw [add_mul, one_mul] at hle
  omega

theorem off_lt_block (h : Dups s fs D os n live ent) (hp : p ∈ live) :
    ((p.2 * entSz : Nat) : Int) < ZBLKSZ := by
  have h1 := h.off_lt hp
  have h2 := ZDATSZ_le
  have h3 := entSz_pos
  omega

theorem fits_addr (hb : Sized) (h : Dups s fs D os n live ent) (hp : p ∈ live) : Fits (addr p) :=
  h.fits_block hb (h.seg p hp).1 (Int.natCast_nonneg _) (h.off_lt_block hp)

theorem addr_pos (h : Dups s fs D os n live ent) (hp : p ∈ live) : 0 < addr p := by
  have h1 := mul_pos (h.pos (h.seg p hp).1) (Int.natCast_pos.2 ZBLKSZ_pos)
  have h2 := Int.natCast_nonneg (p.2 * entSz)
  unfold addr
  omega

theorem cnvdraddr_addr (h : Dups s fs D os n live ent) (hp : p ∈ live) :
    cnvdraddr (addr p) = (p.1, ((p.2 * entSz : Nat) : Int)) :=
  cnvdraddr_add (h.pos (h.seg p hp).1).le (Int.natCast_nonneg _) (h.off_lt_block hp)

theorem getdkey (hb : Sized) (h : Dups s fs D os n live ent) (hp : p ∈ live) :
    exec (getdkey (addr p)) s = .done (some (ent p), s) := by
  obtain ⟨hD,-,he,hf⟩ := h.seg p hp
  exact exec_getdkey hb (h.has hD) (h.pos hD) (Int.natCast_nonneg _) (h.off_lt_block hp) (h.block _ hD).type
    he hf

theorem keep (h : Dups s fs D os n live ent) (hstore : Store s' fs (D ++ os))
    (hsize : s'.disk.size = s.disk.size) (hroot : s'.ctx.super.scroot = s.ctx.super.scroot)
    (hlink : ∀ c, (s'.disk.block c).nxblk = (s.disk.block c).nxblk ∧
      (s'.disk.block c).nblks = (s.disk.block c).nblks ∧ (s'.disk.block c).nxdup = (s.disk.block c).nxdup)
    (hblock : ∀ b ∈ D, IsDup (s'.disk.block b) (n' b) (live'.filter fun p => p.1 = b).card)
    (hseg : ∀ p ∈ live', p.1 ∈ D ∧ p.2 < n' p.1 ∧
      (s'.disk.block p.1).Ent ((p.2 * entSz : Nat) : Int) (ent' p) ∧ (ent' p).Fits) :
    Dups s' fs D os n' live' ent' := by
  refine ⟨hstore,hsize ▸ h.size,h.super,hroot ▸ h.root,hblock,?_,?_,?_,?_,hseg⟩
  · intro b hb
    rw [(hlink b).1, (hlink _).2.1]
    exact h.nxblk b hb
  · intro b hb
    rw [(hlink b).2.1, (hlink _).1]
    exact h.nblks b hb
  · rw [hroot, (hlink _).2.2, (hlink _).2.1]
    exact h.head
  · rw [hroot, (hlink _).1]
    exact h.data

theorem disjoint {i j : Nat} (hij : i ≠ j) :
    ((i * entSz : Nat) : Int) + entSz ≤ ((j * entSz : Nat) : Int) ∨
      ((j * entSz : Nat) : Int) + entSz ≤ ((i * entSz : Nat) : Int) := by
  rcases Nat.lt_or_gt_of_ne hij with hlt | hgt
  · left
    have := Nat.mul_le_mul_right entSz hlt
    rw [Nat.succ_mul] at this
    omega
  · right
    have := Nat.mul_le_mul_right entSz hgt
    rw [Nat.succ_mul] at this
    omega

theorem putdkey (hb : Sized) (h : Dups s fs D os n live ent) (hp : p ∈ live) (hd : d.Fits) :
    ∃ s', exec (putdkey (addr p) d) s = .done (s.ctx.err.qerror, s') ∧
      Dups s' fs D os n live (Function.update ent p d) ∧ Apart s s' os ∧ s'.ctx = s.ctx := by
  obtain ⟨hD,hlt,he,hf⟩ := h.seg p hp
  refine ⟨_,exec_putdkey hb (h.has hD) (h.pos hD) (Int.natCast_nonneg _) (h.off_lt_block hp)
    (h.block _ hD).type he hd.short,?_,⟨rfl,rfl,rfl,fun c hc => ?_⟩,rfl⟩
  · refine h.keep (h.store.put (List.mem_append_left _ hD) _) rfl rfl (fun c => ?_) (fun c hc => ?_)
      fun q hq => ?_
    · by_cases hc : c = p.1
      · subst hc
        simp only [Disk.block_put, Function.update_self]
        exact ⟨rfl,rfl,rfl⟩
      · simp only [Disk.block_put, Function.update_of_ne hc, and_self]
    · have hdup := h.block c hc
      by_cases hcp : c = p.1
      · subst hcp
        simp only [Disk.block_put, Function.update_self]
        exact ⟨hdup.type,hdup.nkeys,hdup.room,hdup.misc,hdup.least⟩
      · simp only [Disk.block_put, Function.update_of_ne hcp]
        exact hdup
    · obtain ⟨hDq,hltq,heq,hfq⟩ := h.seg q hq
      refine ⟨hDq,hltq,?_⟩
      by_cases hqp : q = p
      · subst hqp
        simp only [Disk.block_put, Function.update_self]
        exact ⟨Block.ent_putEnt _ _ hd.short,hd⟩
      · rw [Function.update_of_ne hqp]
        refine ⟨?_,hfq⟩
        by_cases hb1 : q.1 = p.1
        · have hne : q.2 ≠ p.2 := fun h2 => hqp (Prod.ext hb1 h2)
          rw [hb1] at heq
          simp only [Disk.block_put, hb1, Function.update_self]
          exact heq.putEnt hd.short (disjoint hne)
        · simp only [Disk.block_put, Function.update_of_ne hb1]
          exact heq
  · have hne : c ≠ p.1 := fun hcp => h.not_mem_os hD (hcp ▸ hc)
    exact ⟨(s.disk.block c).nxdup,by simp only [Disk.block_put, Function.update_of_ne hne]⟩

theorem addr_inj (h : Dups s fs D os n live ent) (hp : p ∈ live) (hq : q ∈ live) (heq : addr p = addr q) : p = q := by
  have h1 := h.cnvdraddr_addr hp
  rw [heq, h.cnvdraddr_addr hq] at h1
  obtain ⟨hblk,hoff⟩ := Prod.mk.inj h1
  have hmul : q.2 * entSz = p.2 * entSz := by exact_mod_cast hoff
  exact Prod.ext hblk.symm (Nat.eq_of_mul_eq_mul_right entSz_pos hmul).symm

-- An entry that is not in use is not written to.
theorem stale_putdkey (hb : Sized) (h : Dups s fs D os n live ent) (hp : p ∈ live) (hd : d.Fits) {r : Int}
    (hex : exec (Btlib.putdkey (addr p) d) s = .done (r, s')) (hq : q ∉ live) {e : DKey} (hs : Stale s q e gone) :
    Stale s' q e gone := by
  obtain ⟨hD,hlt,he,hf⟩ := h.seg p hp
  have hput := exec_putdkey hb (h.has hD) (h.pos hD) (Int.natCast_nonneg _) (h.off_lt_block hp) (h.block _ hD).type he
    hd.short
  obtain ⟨-,rfl⟩ := Prod.mk.inj (Prog.Outcome.done.inj (hex.symm.trans hput))
  refine ⟨(Disk.has_put _ _ _ _).2 hs.has,hs.pos,hs.low,?_⟩
  by_cases hqp : q.1 = p.1
  · have hne : q.2 ≠ p.2 := fun h2 => hq (Prod.ext hqp h2 ▸ hp)
    simp only [Disk.block_put, hqp, Function.update_self]
    rcases hs.left with hl | ⟨hno,htype,hent,hfits⟩
    · rw [hqp] at hl
      exact Or.inl hl
    · rw [hqp] at htype hent
      exact Or.inr ⟨hno,htype,hent.putEnt hd.short (disjoint hne),hfits⟩
  · simp only [Disk.block_put, Function.update_of_ne hqp]
    exact hs.left

theorem card_le (h : Dups s fs D os n live ent) (b : Int) : (live.filter fun p => p.1 = b).card ≤ n b := by
  rw [← Finset.card_range (n b)]
  refine Finset.card_le_card_of_injOn Prod.snd (fun p hp => ?_) fun p hp q hq hpq => ?_
  · rw [Finset.mem_coe, Finset.mem_filter] at hp
    obtain ⟨-,hlt,-,-⟩ := h.seg p hp.1
    rw [hp.2] at hlt
    simpa using hlt
  · rw [Finset.mem_coe, Finset.mem_filter] at hp hq
    exact Prod.ext (hp.2.trans hq.2.symm) hpq

omit [Build] in
theorem card_erase (hp : p ∈ live) (b : Int) : ((live.erase p).filter fun q => q.1 = b).card =
    if b = p.1 then (live.filter fun q => q.1 = b).card - 1 else (live.filter fun q => q.1 = b).card := by
  rw [Finset.filter_erase]
  split
  · rename_i hb
    rw [Finset.card_erase_of_mem (Finset.mem_filter.2 ⟨hp,hb.symm⟩)]
  · rename_i hb
    rw [Finset.erase_eq_of_notMem fun hmem => hb (Finset.mem_filter.1 hmem).2.symm]

theorem misc_erase (h : Dups s fs D os n live ent) (hb : Sized) (hp : p ∈ live) :
    (s.disk.block p.1).misc + (rdsz ((s.disk.block p.1).bytes ((p.2 * entSz : Nat) : Int) ZDRSZ) + ZDOVRH) =
      ZDATSZ - (((live.filter fun q => q.1 = p.1).card - 1 : Nat) : Int) * entSz := by
  obtain ⟨hD,hlt,he,hf⟩ := h.seg p hp
  have hpos : 0 < (live.filter fun q => q.1 = p.1).card := Finset.card_pos.2 ⟨p,Finset.mem_filter.2 ⟨hp,rfl⟩⟩
  rw [rdsz_ent hb he, (h.block _ hD).misc]
  have hent : ((entSz : Nat) : Int) = ZDOVRH + sizeofDKey := by simp [entSz]
  obtain ⟨m,hm⟩ := Nat.exists_eq_succ_of_ne_zero hpos.ne'
  rw [hm, Nat.succ_sub_one]
  push_cast
  rw [add_mul, one_mul, hent]
  ring

theorem deldat_some (hb : Sized) (h : Dups s fs D os n live ent) (hp : p ∈ live)
    (hmore : 1 < (live.filter fun q => q.1 = p.1).card) :
    ∃ s', exec (deldat p.1 ((p.2 * entSz : Nat) : Int)) s = .done (0, s') ∧
      Dups s' fs D os n (live.erase p) ent ∧ Apart s s' os ∧ Stale s' p (ent p) (Only live p) := by
  obtain ⟨hD,hlt,he,hf⟩ := h.seg p hp
  have hle := h.card_le p.1
  have hroom := (h.block p.1 hD).room
  have hpos := entSz_pos
  have hmul : ((live.filter fun q => q.1 = p.1).card - 1) * entSz ≤ n p.1 * entSz :=
    Nat.mul_le_mul_right _ (by omega)
  have hmul' : 0 < ((live.filter fun q => q.1 = p.1).card - 1) * entSz := Nat.mul_pos (by omega) hpos
  have hcast : (((live.filter fun q => q.1 = p.1).card - 1 : Nat) : Int) * entSz =
      ((((live.filter fun q => q.1 = p.1).card - 1) * entSz : Nat) : Int) := by push_cast; rfl
  refine ⟨_,exec_deldat (h.has hD) (h.misc_erase hb hp).symm (by omega) (by omega),?_,⟨rfl,rfl,rfl,?_⟩,
    (Disk.has_put _ _ _ _).2 (h.has hD),h.pos hD,h.off_lt_block hp,Or.inr ?_⟩
  · refine h.keep (h.store.put (List.mem_append_left _ hD) _) rfl rfl (fun c => ?_) (fun c hc => ?_)
      fun q hq => ?_
    · by_cases hc : c = p.1
      · subst hc
        simp only [Disk.block_put, Function.update_self]
        exact ⟨rfl,rfl,rfl⟩
      · simp only [Disk.block_put, Function.update_of_ne hc, and_self]
    · have hdup := h.block c hc
      rw [card_erase hp]
      by_cases hcp : c = p.1
      · subst hcp
        simp only [Disk.block_put, Function.update_self]
        exact ⟨hdup.type,hdup.nkeys,hdup.room,rfl,hdup.least⟩
      · simp only [Disk.block_put, Function.update_of_ne hcp, if_neg hcp]
        exact hdup
    · obtain ⟨hDq,hltq,heq,hfq⟩ := h.seg q (Finset.mem_of_mem_erase hq)
      refine ⟨hDq,hltq,?_,hfq⟩
      by_cases hb1 : q.1 = p.1
      · rw [hb1] at heq
        simp only [Disk.block_put, hb1, Function.update_self]
        exact ⟨heq.size,heq.next,heq.data⟩
      · simp only [Disk.block_put, Function.update_of_ne hb1]
        exact heq
  · intro c hc
    have hne : c ≠ p.1 := fun hcp => h.not_mem_os hD (hcp ▸ hc)
    exact ⟨(s.disk.block c).nxdup,by simp only [Disk.block_put, Function.update_of_ne hne]⟩
  · simp only [Disk.block_put, Function.update_self]
    exact ⟨fun hone => by have : (live.filter fun q => q.1 = p.1).card = 1 := hone; omega,(h.block p.1 hD).type,
      ⟨he.size,he.next,he.data⟩,hf⟩

omit [Build] in
theorem block_unlink [Build] {d : Disk} (hc : c ≠ blk) (h0 : c ≠ ZNULL) :
    (d.unlink blk).block c = { d.block c with
      nblks := if c = (d.block blk).nxblk then (d.block blk).nblks else (d.block c).nblks
      nxblk := if c = (d.block blk).nblks then (d.block blk).nxblk else (d.block c).nxblk } := by
  unfold Disk.unlink Disk.relink
  generalize (d.block blk).nxblk = N
  generalize (d.block blk).nblks = P
  by_cases hN : N = ZNULL <;> by_cases hP : P = ZNULL <;> by_cases hcN : c = N <;> by_cases hcP : c = P <;>
    simp_all [Function.update_apply, Block.setInf]

omit [Build] in
theorem btype_put {d : Disk} {a : Int} {b : Block} (hb : b.btype = (d.block a).btype) (c : Int) :
    ((d.put a b).block c).btype = (d.block c).btype := by
  by_cases hc : c = a
  · subst hc
    simpa only [Disk.block_put, Function.update_self] using hb
  · simp only [Disk.block_put, Function.update_of_ne hc]

theorem btype_relink {d : Disk} {w : Inf} (hw : w ≠ .ZBTYPE) (a v c : Int) :
    ((d.relink a w v).block c).btype = (d.block c).btype := by
  unfold Disk.relink
  split
  · rfl
  · refine btype_put ?_ c
    cases w <;> first | rfl | exact absurd rfl hw

theorem btype_unlink (d : Disk) (blk c : Int) : ((d.unlink blk).block c).btype = (d.block c).btype := by
  rw [Disk.unlink, btype_relink (by decide), btype_relink (by decide)]
  refine btype_put ?_ c
  rfl

theorem deldat_last (hb : Sized) (h : Dups s fs D os n live ent) (hp : p ∈ live)
    (hone : (live.filter fun q => q.1 = p.1).card = 1) :
    ∃ s', exec (deldat p.1 ((p.2 * entSz : Nat) : Int)) s = .done (0, s') ∧
      Dups s' (p.1 :: fs) (D.erase p.1) os n (live.erase p) ent ∧ Apart s s' os ∧ Stale s' p (ent p) (Only live p) := by
  obtain ⟨hD,hlt,he,hf⟩ := h.seg p hp
  have hmisc := h.misc_erase hb hp
  rw [hone, Nat.sub_self, Nat.cast_zero, zero_mul, sub_zero] at hmisc
  have hn := (h.nxblk _ hD).imp_right fun hn => h.has hn.1
  have hp' := (h.nblks _ hD).imp_right fun hn => h.has hn.1
  have hdup := (h.block _ hD).type
  have hroot : s.ctx.super.scroot ≠ p.1 := (h.ne_root hD).symm
  have hnull : s.ctx.super.scroot ≠ ZNULL := by
    have := h.has_root.1
    change s.ctx.super.scroot ≠ -1
    omega
  have hblock : ∀ c, c ≠ p.1 → c ≠ ZNULL → c ≠ s.ctx.super.scroot →
      (((s.disk.unlink p.1).unhead s.ctx.super.scroot p.1).block c) = { s.disk.block c with
        nblks := if c = (s.disk.block p.1).nxblk then (s.disk.block p.1).nblks else (s.disk.block c).nblks
        nxblk := if c = (s.disk.block p.1).nblks then (s.disk.block p.1).nxblk
          else (s.disk.block c).nxblk } := by
    intro c hc h0 hr
    unfold Disk.unhead
    split
    · rw [Disk.block_put, Function.update_of_ne hr, block_unlink hc h0]
    · exact block_unlink hc h0
  have hrootn : ∀ b ∈ D, s.ctx.super.scroot ≠ b := fun b hb => (h.ne_root hb).symm
  have hrn : s.ctx.super.scroot ≠ (s.disk.block p.1).nxblk := by
    rcases h.nxblk _ hD with hz | ⟨hz,-⟩
    · rw [hz]
      exact hnull
    · exact hrootn _ hz
  have hrp : s.ctx.super.scroot ≠ (s.disk.block p.1).nblks := by
    rcases h.nblks _ hD with hz | ⟨hz,-⟩
    · rw [hz]
      exact hnull
    · exact hrootn _ hz
  have hrblock : (s.disk.unlink p.1).block s.ctx.super.scroot = s.disk.block s.ctx.super.scroot := by
    rw [block_unlink hroot hnull, if_neg hrn, if_neg hrp]
  have hrhead : ((s.disk.unlink p.1).unhead s.ctx.super.scroot p.1).block s.ctx.super.scroot =
      { s.disk.block s.ctx.super.scroot with nxdup :=
        if (s.disk.block s.ctx.super.scroot).nxdup = p.1 then ZNULL
        else (s.disk.block s.ctx.super.scroot).nxdup } := by
    unfold Disk.unhead
    rw [hrblock]
    split
    · rw [Disk.block_put, Function.update_self]
      rfl
    · exact hrblock
  have hex := exec_deldat_last (h.has hD) h.has_root hmisc hn hp' rfl ((btype_unlink _ _ _).trans hdup) (by
    rw [Disk.block_put, Function.update_of_ne hroot, hrhead]
    rintro hd
    rcases h.data with hz | hz
    · exact h.ne_null hD (hd.symm.trans hz)
    · exact h.not_mem_os hD (hd ▸ hz))
  have hnodup : D.Nodup := (List.nodup_append.1 h.store.nodup_used).1
  have hother : ∀ c, c ∉ D → c ≠ ZNULL →
      c ≠ (s.disk.block p.1).nxblk ∧ c ≠ (s.disk.block p.1).nblks := by
    intro c hc h0
    constructor
    · rintro rfl
      exact (h.nxblk _ hD).elim h0 fun hx => hc hx.1
    · rintro rfl
      exact (h.nblks _ hD).elim h0 fun hx => hc hx.1
  have hkeep : ∀ c, c ∉ D → c ≠ ZNULL → c ≠ s.ctx.super.scroot →
      ((s.disk.unlink p.1).unhead s.ctx.super.scroot p.1).block c = s.disk.block c := by
    intro c hc h0 hr
    have hcp : c ≠ p.1 := fun hcp => hc (hcp ▸ hD)
    rw [hblock c hcp h0 hr, if_neg (hother c hc h0).1, if_neg (hother c hc h0).2]
  have hperm : (fs ++ (D ++ os)).Perm (p.1 :: fs ++ (D.erase p.1 ++ os)) := by
    refine (((List.perm_cons_erase hD).append_right os).append_left fs).trans ?_
    exact List.perm_middle
  have hsize : (s.disk.unlink p.1).size = s.disk.size := by
    simp only [Disk.unlink, Disk.size_relink, Disk.size_put]
  have hblk : ∀ c, c ≠ p.1 → c ∈ D →
      ((((s.disk.unlink p.1).unhead s.ctx.super.scroot p.1).put p.1
        ((((s.disk.unlink p.1).unhead s.ctx.super.scroot p.1).block p.1).setBk ZFREE 0 s.ctx.super.sfreep
          0 0 ZNULL)).block c) = { s.disk.block c with
        nblks := if c = (s.disk.block p.1).nxblk then (s.disk.block p.1).nblks else (s.disk.block c).nblks
        nxblk := if c = (s.disk.block p.1).nblks then (s.disk.block p.1).nxblk
          else (s.disk.block c).nxblk } := by
    intro c hcp hcD
    rw [Disk.block_put, Function.update_of_ne hcp, hblock c hcp (h.ne_null hcD) (h.ne_root hcD)]
  refine ⟨_,hex,⟨⟨?_,?_,?_,?_,?_⟩,?_,h.super,h.root,?_,?_,?_,?_,?_,?_⟩,⟨rfl,rfl,rfl,?_⟩,?_,h.pos hD,h.off_lt_block hp,
    Or.inl ⟨hone,?_⟩⟩
  · refine ⟨rfl,?_,?_⟩
    · rw [Disk.block_put, Function.update_self]
      rfl
    · rw [Disk.block_put, Function.update_self]
      refine h.store.chain.congr fun c hc => ?_
      have hcu : c ∉ D ++ os := fun hcu => h.store.not_mem_free hcu hc
      have hcD : c ∉ D := fun hcD => hcu (List.mem_append_left _ hcD)
      have hcp : c ≠ p.1 := fun hcp => hcD (hcp ▸ hD)
      have h0 : c ≠ ZNULL := by
        have := (h.store.has c (List.mem_append_left _ hc)).1
        change c ≠ -1
        omega
      rw [Function.update_of_ne hcp]
      exact hkeep c hcD h0 fun hcr => hcu (hcr ▸ List.mem_append_right _ h.root)
  · exact hperm.nodup_iff.1 h.store.nodup
  · intro c hc
    have := h.store.has c (hperm.mem_iff.2 hc)
    simpa only [Disk.Has, Disk.size_put, Disk.size_unhead, hsize] using this
  · refine h.store.size.trans ?_
    simp only [Disk.size_put, Disk.size_unhead, hsize]
  · simpa only [Disk.size_put, Disk.size_unhead, hsize] using h.store.size_nonneg
  · simpa only [Disk.size_put, Disk.size_unhead, hsize] using h.size
  · intro c hc
    obtain ⟨hcp,hcD⟩ := (List.Nodup.mem_erase_iff hnodup).1 hc
    rw [hblk c hcp hcD, card_erase hp, if_neg hcp]
    have hdup := h.block c hcD
    exact ⟨hdup.type,hdup.nkeys,hdup.room,hdup.misc,hdup.least⟩
  · intro c hc
    obtain ⟨hcp,hcD⟩ := (List.Nodup.mem_erase_iff hnodup).1 hc
    rw [hblk c hcp hcD]
    dsimp only
    by_cases hcP : c = (s.disk.block p.1).nblks
    · rw [if_pos hcP]
      rcases h.nxblk _ hD with hz | ⟨hz,hzb⟩
      · exact Or.inl hz
      · have hne : (s.disk.block p.1).nxblk ≠ p.1 := fun heq => by
          rw [heq] at hzb
          exact hcp (hcP.trans hzb)
        refine Or.inr ⟨(List.Nodup.mem_erase_iff hnodup).2 ⟨hne,hz⟩,?_⟩
        rw [hblk _ hne hz]
        exact (if_pos rfl).trans hcP.symm
    · rw [if_neg hcP]
      rcases h.nxblk _ hcD with hz | ⟨hz,hzb⟩
      · exact Or.inl hz
      · have hne : (s.disk.block c).nxblk ≠ p.1 := fun heq => by
          rw [heq] at hzb
          exact hcP hzb.symm
        refine Or.inr ⟨(List.Nodup.mem_erase_iff hnodup).2 ⟨hne,hz⟩,?_⟩
        rw [hblk _ hne hz]
        dsimp only
        rw [if_neg, hzb]
        intro heq
        rcases h.nxblk _ hD with hz' | ⟨-,hz'⟩
        · exact h.ne_null hz (heq.trans hz')
        · rw [← heq, hzb] at hz'
          exact hcp hz'
  · intro c hc
    obtain ⟨hcp,hcD⟩ := (List.Nodup.mem_erase_iff hnodup).1 hc
    rw [hblk c hcp hcD]
    dsimp only
    by_cases hcN : c = (s.disk.block p.1).nxblk
    · rw [if_pos hcN]
      rcases h.nblks _ hD with hz | ⟨hz,hzb⟩
      · exact Or.inl hz
      · have hne : (s.disk.block p.1).nblks ≠ p.1 := fun heq => by
          rw [heq] at hzb
          exact hcp (hcN.trans hzb)
        refine Or.inr ⟨(List.Nodup.mem_erase_iff hnodup).2 ⟨hne,hz⟩,?_⟩
        rw [hblk _ hne hz]
        exact (if_pos rfl).trans hcN.symm
    · rw [if_neg hcN]
      rcases h.nblks _ hcD with hz | ⟨hz,hzb⟩
      · exact Or.inl hz
      · have hne : (s.disk.block c).nblks ≠ p.1 := fun heq => by
          rw [heq] at hzb
          exact hcN hzb.symm
        refine Or.inr ⟨(List.Nodup.mem_erase_iff hnodup).2 ⟨hne,hz⟩,?_⟩
        rw [hblk _ hne hz]
        dsimp only
        rw [if_neg, hzb]
        intro heq
        rcases h.nblks _ hD with hz' | ⟨-,hz'⟩
        · exact h.ne_null hz (heq.trans hz')
        · rw [← heq, hzb] at hz'
          exact hcp hz'
  · dsimp only [Ctx.freed]
    rw [Disk.block_put, Function.update_of_ne hroot, hrhead]
    dsimp only
    split
    · exact Or.inl rfl
    · rename_i hne
      rcases h.head with hz | ⟨hz,hzb⟩
      · exact Or.inl hz
      · refine Or.inr ⟨(List.Nodup.mem_erase_iff hnodup).2 ⟨hne,hz⟩,?_⟩
        rw [← Disk.block_put, hblk _ hne hz]
        dsimp only
        rw [if_neg, hzb]
        intro heq
        rcases h.nxblk _ hD with hz' | ⟨-,hz'⟩
        · exact h.ne_null hz (heq.trans hz')
        · rw [← heq, hzb] at hz'
          exact h.ne_null hD hz'.symm
  · dsimp only [Ctx.freed]
    rw [Disk.block_put, Function.update_of_ne hroot, hrhead]
    exact h.data
  · intro q hq
    obtain ⟨hqp,hq⟩ := Finset.mem_erase.1 hq
    obtain ⟨hDq,hltq,heq,hfq⟩ := h.seg q hq
    have hne : q.1 ≠ p.1 := fun h1 => by
      obtain ⟨a,ha⟩ := Finset.card_eq_one.1 hone
      have h2 : q ∈ live.filter fun q => q.1 = p.1 := Finset.mem_filter.2 ⟨hq,h1⟩
      have h3 : p ∈ live.filter fun q => q.1 = p.1 := Finset.mem_filter.2 ⟨hp,rfl⟩
      rw [ha, Finset.mem_singleton] at h2 h3
      exact hqp (h2.trans h3.symm)
    refine ⟨(List.Nodup.mem_erase_iff hnodup).2 ⟨hne,hDq⟩,hltq,?_,hfq⟩
    rw [hblk _ hne hDq]
    exact ⟨heq.size,heq.next,heq.data⟩
  · intro c hc
    have hD' : c ∉ D := fun hcD => h.not_mem_os hcD hc
    have hcp : c ≠ p.1 := fun hcp => hD' (hcp ▸ hD)
    dsimp only
    rw [Disk.block_put, Function.update_of_ne hcp]
    by_cases hr : c = s.ctx.super.scroot
    · subst hr
      exact ⟨_,hrhead⟩
    · have h0 : c ≠ ZNULL := by
        have := (h.store.has_used (List.mem_append_right D hc)).1
        change c ≠ -1
        omega
      exact ⟨(s.disk.block c).nxdup,hkeep c hD' h0 hr⟩
  · have := h.has hD
    simpa only [Disk.Has, Disk.size_put, Disk.size_unhead, hsize] using this
  · dsimp only [Ctx.freed]
    rw [Disk.block_put, Function.update_self]
    exact (by decide : ZFREE ≠ ZDUP)

theorem deldat (hb : Sized) (h : Dups s fs D os n live ent) (hp : p ∈ live) :
    ∃ s' fs' D', exec (deldat p.1 ((p.2 * entSz : Nat) : Int)) s = .done (0, s') ∧
      Dups s' fs' D' os n (live.erase p) ent ∧ Apart s s' os ∧ Stale s' p (ent p) (Only live p) := by
  have hpos : 0 < (live.filter fun q => q.1 = p.1).card :=
    Finset.card_pos.2 ⟨p,Finset.mem_filter.2 ⟨hp,rfl⟩⟩
  rcases Nat.lt_or_ge 1 (live.filter fun q => q.1 = p.1).card with hlt | hle
  · obtain ⟨s',hex,hd,ha⟩ := h.deldat_some hb hp hlt
    exact ⟨s',fs,D,hex,hd,ha⟩
  · obtain ⟨s',hex,hd,ha⟩ := h.deldat_last hb hp (by omega)
    exact ⟨s',_,_,hex,hd,ha⟩

omit [Build] in
theorem card_insert (hp : p ∉ live) (b : Int) : ((insert p live).filter fun q => q.1 = b).card =
    if b = p.1 then (live.filter fun q => q.1 = b).card + 1 else (live.filter fun q => q.1 = b).card := by
  rw [Finset.filter_insert]
  by_cases hb : b = p.1
  · rw [if_pos hb.symm, if_pos hb, Finset.card_insert_of_notMem fun hmem => hp (Finset.mem_filter.1 hmem).1]
  · rw [if_neg (Ne.symm hb), if_neg hb]

theorem insdat (h : Dups s fs D os n live ent) (hD : b ∈ D) (hroom : (n b + 1) * entSz ≤ ZDATSZ)
    (hd : d.Fits) : ∃ s', exec (insdat b d.bytes 0) s = .done (((n b * entSz : Nat) : Int), s') ∧
      (b, n b) ∉ live ∧ Dups s' fs D os (Function.update n b (n b + 1)) (insert (b, n b) live)
        (Function.update ent (b, n b) d) ∧ Apart s s' os := by
  have hlen := DKey.length_bytes hd.short
  have hdup := h.block b hD
  have hnew : (b, n b) ∉ live := fun hmem => absurd (h.seg _ hmem).2.1 (lt_irrefl _)
  have hent : ((entSz : Nat) : Int) = ZDOVRH + sizeofDKey := by simp [entSz]
  have hoff : (s.disk.block b).nkeys = ((n b * entSz : Nat) : Int) := by
    rw [hdup.nkeys]
    push_cast
    rfl
  have hex := exec_insdat (h.has hD) d.bytes 0
  rw [hoff] at hex
  refine ⟨_,hex,hnew,?_,rfl,rfl,rfl,fun c hc => ?_⟩
  · refine h.keep (h.store.put (List.mem_append_left _ hD) _) rfl rfl (fun c => ?_) (fun c hc => ?_)
      fun q hq => ?_
    · by_cases hcb : c = b
      · subst hcb
        simp only [Disk.block_put, Function.update_self]
        exact ⟨rfl,rfl,rfl⟩
      · simp only [Disk.block_put, Function.update_of_ne hcb, and_self]
    · rw [card_insert hnew]
      by_cases hcb : c = b
      · subst hcb
        simp only [Disk.block_put, Function.update_self, if_pos]
        refine ⟨hdup.type,?_,hroom,?_,hdup.least⟩
        · change (s.disk.block c).nkeys + ZDOVRH + d.bytes.length = _
          rw [hdup.nkeys, hlen]
          push_cast
          rw [hent]
          ring
        · change (s.disk.block c).misc - (ZDOVRH + d.bytes.length) = _
          rw [hdup.misc, hlen]
          push_cast
          rw [hent]
          ring
      · simp only [Disk.block_put, Function.update_of_ne hcb, if_neg hcb]
        exact h.block c hc
    · by_cases hqb : q = (b, n b)
      · subst hqb
        simp only [Disk.block_put, Function.update_self]
        refine ⟨hD,Nat.lt_succ_self _,?_,hd⟩
        have he := Block.ent_setBytes (s.disk.block b) ((n b * entSz : Nat) : Int) hd.short
        rw [← hlen, ← hoff] at he
        rw [← hoff]
        exact ⟨he.size,he.next,he.data⟩
      · have hql : q ∈ live := (Finset.mem_insert.1 hq).resolve_left hqb
        obtain ⟨hDq,hltq,heq,hfq⟩ := h.seg q hql
        rw [Function.update_of_ne hqb]
        by_cases hb1 : q.1 = b
        · rw [hb1] at heq hltq
          refine ⟨hb1 ▸ hD,?_,?_,hfq⟩
          · rw [hb1, Function.update_self]
            exact Nat.lt_succ_of_lt hltq
          · simp only [Disk.block_put, hb1, Function.update_self]
            have hle := Nat.mul_le_mul_right entSz (Nat.succ_le_of_lt hltq)
            rw [Nat.succ_mul] at hle
            have hbefore : ((q.2 * entSz : Nat) : Int) + entSz ≤ (s.disk.block b).nkeys := by
              rw [hoff]
              omega
            have he := heq.setBytes (l := wrsz d.bytes.length ++ wrint 0 ++ d.bytes) (Or.inl hbefore)
            exact ⟨he.size,he.next,he.data⟩
        · simp only [Disk.block_put, Function.update_of_ne hb1]
          exact ⟨hDq,hltq,heq,hfq⟩
  · have hne : c ≠ b := fun hcb => h.not_mem_os hD (hcb ▸ hc)
    exact ⟨(s.disk.block c).nxdup,by simp only [Disk.block_put, Function.update_of_ne hne]⟩

end Dups

end Btlib
