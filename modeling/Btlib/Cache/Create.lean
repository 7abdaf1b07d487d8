import Btlib.Cache.Prealloc
import Btlib.Cache.Sessions

namespace Btlib

section Formed

variable [Build] {e : Nat → Bool × Disk} {s : Seat} {k k1 : Cache} {bs : List Block} {b : Block} {i j : Nat}

-- The cache of a new file: its blocks are in the first slots, one in each, and in the file as they are there.
structure Formed (k : Cache) (bs : List Block) : Prop where
  inmem : ∀ i < ZMXBLK, (k.slot i).inmem = if i < bs.length then (i : Int) else ZNULL
  busy : ∀ i < ZMXBLK, (k.slot i).busy = false
  writes : ∀ i < ZMXBLK, (k.slot i).writes = 0
  mem : ∀ i b, bs[i]? = some b → (k.slot i).mem = b ∧ k.file.block i = b
  lru : k.lru.Perm (List.range ZMXBLK)
  size : k.file.size = bs.length
  labelled : k.labelled < ZMXBLK
  length : bs.length ≤ ZMXBLK

namespace Formed

theorem initcntrl (hl : k.labelled < ZMXBLK) (hsize : k.file.size = 0) : Formed k.initcntrl [] :=
  ⟨fun _ _ => rfl,fun _ _ => rfl,fun _ _ => rfl,fun _ _ h => (by cases h),.refl _,hsize,hl,Nat.zero_le _⟩

theorem laid (h : Formed k bs) : Laid k ((List.range bs.length).map Int.ofNat) := by
  refine ⟨fun i hi => ?_,fun i hi => (h.writes i hi).ge,?_,?_,by simpa using h.length⟩
  · rw [h.inmem i hi, List.getD_eq_getElem?_getD, List.getElem?_map]
    split
    · rename_i hlt
      rw [List.getElem?_range hlt]
      rfl
    · rename_i hge
      rw [List.getElem?_eq_none (by simpa using hge)]
      rfl
  · exact List.nodup_range.map fun _ _ h => Int.ofNat.inj h
  · intro b hb
    obtain ⟨i,-,rfl⟩ := List.mem_map.1 hb
    exact Int.natCast_nonneg i

theorem findSlot (h : Formed k bs) (hi : i < bs.length) : k.findSlot i = some i :=
  h.laid.findSlot (by rw [List.getElem?_map, List.getElem?_range hi]; rfl)

theorem view (h : Formed k bs) (hb : bs[i]? = some b) : k.view i = b := by
  rw [Cache.view, h.findSlot (List.getElem?_eq_some_iff.1 hb).1]
  exact (h.mem i b hb).1

theorem inmem_cases (h : Formed k bs) (hi : i < ZMXBLK) :
    (i < bs.length ∧ (k.slot i).inmem = i) ∨ (bs.length ≤ i ∧ (k.slot i).inmem = -1) := by
  rw [h.inmem i hi]
  split
  · exact Or.inl ⟨‹_›,rfl⟩
  · exact Or.inr ⟨not_lt.1 ‹_›,rfl⟩

theorem keeps (h : Formed k bs) : k.Keeps ∅ none := by
  refine ⟨h.lru,fun i hi hb => ?_,fun _ hb => (by cases hb),fun i hi j hj hij h0 => ?_,fun _ hb => (by cases hb),fun i hi => ?_,
    fun _ hb => (by cases hb),h.labelled⟩
  · rw [h.busy i hi] at hb
    cases hb
  · have h1 := h.inmem_cases hi
    have h2 := h.inmem_cases hj
    omega
  · change -1 ≤ (k.slot i).inmem
    have h1 := h.inmem_cases hi
    omega

theorem backed (h : Formed k bs) : k.Backed ⟨∅, none, k.file.size, true, none, none⟩ := by
  refine ⟨rfl,h.size ▸ Int.natCast_nonneg _,fun i hi => ?_,fun i hi => (h.writes i hi).ge,fun i hi _ => h.writes i hi,
    fun i hi h0 _ _ => ?_,fun _ hb => (by cases hb),fun _ hb => (by cases hb)⟩
  · rw [h.size]
    have h1 := h.inmem_cases hi
    omega
  · rcases h.inmem_cases hi with ⟨hlt,hm⟩ | ⟨-,hm⟩
    · have hmem := h.mem i _ (List.getElem?_eq_getElem hlt)
      rw [hm, hmem.1, hmem.2]
    · omega

end Formed

end Formed

section Draft

variable [Build] {e : Nat → Bool × Disk} {c : Ctx} {k k1 : Cache} {bs : List Block} {b b' : Block} {w n : Int}

-- The next block of a new file while it is made: it is in its slot only, which counts `w` changes.
structure Draft (k : Cache) (bs : List Block) (k1 : Cache) (b : Block) (w : Int) : Prop where
  formed : Formed k bs
  room : bs.length < ZMXBLK
  slot : ∀ j, j ≠ bs.length → k1.slot j = k.slot j
  last : k1.slot bs.length = ⟨bs.length, false, w, b⟩
  lru : k1.lru.Perm (List.range ZMXBLK)
  file : k1.file = k.file
  labelled : k1.labelled < ZMXBLK

namespace Draft

theorem findSlot (h : Draft k bs k1 b w) : k1.findSlot bs.length = some bs.length := by
  unfold Cache.findSlot
  rw [List.find?_range_eq_some]
  refine ⟨by simp [h.last],List.mem_range.2 h.room,fun j hj => ?_⟩
  rw [h.slot j hj.ne, h.formed.inmem j (hj.trans h.room), if_pos hj]
  simpa using hj.ne

theorem bqmove (h : Draft k bs k1 b w) : Draft k bs (k1.bqmove bs.length) b w :=
  have hmem := h.lru.mem_iff.2 (List.mem_range.2 h.room)
  ⟨h.formed,h.room,h.slot,h.last,
    ((List.perm_append_singleton _ _).trans (List.perm_cons_erase hmem).symm).trans h.lru,h.file,h.labelled⟩

theorem setSlot (h : Draft k bs k1 b w) {f : Slot → Slot} {w' : Int}
    (hf : f ⟨bs.length, false, w, b⟩ = ⟨bs.length, false, w', b'⟩) : Draft k bs (k1.setSlot bs.length f) b' w' := by
  refine ⟨h.formed,h.room,fun j hj => ?_,?_,h.lru,h.file,h.labelled⟩
  · rw [Cache.slot_setSlot_of_ne hj, h.slot j hj]
  · rw [Cache.slot_setSlot_self, h.last, hf]

theorem flush (h : Draft k bs k1 b w) (hw : 0 < w) : Formed (k1.flush bs.length) (bs ++ [b]) := by
  have halike := Cache.alike_flush k1 bs.length
  have hlen : (bs ++ [b]).length = bs.length + 1 := List.length_append
  have hm : (k1.slot bs.length).inmem = bs.length := by rw [h.last]
  have hw' : (k1.slot bs.length).writes ≠ 0 := by
    rw [h.last]
    exact hw.ne'
  refine ⟨fun j hj => ?_,fun j hj => ?_,fun j hj => ?_,fun j b' hjb => ?_,halike.lru.trans h.lru,?_,
    halike.labelled ▸ h.labelled,hlen ▸ h.room⟩
  · rw [halike.inmem, hlen]
    by_cases hne : j = bs.length
    · rw [hne, hm, if_pos (Nat.lt_succ_self _)]
    · rw [h.slot j hne, h.formed.inmem j hj]
      exact if_congr (by omega) rfl rfl
  · rw [halike.busy]
    by_cases hne : j = bs.length
    · rw [hne, h.last]
    · rw [h.slot j hne, h.formed.busy j hj]
  · rw [(Cache.flush_slot k1 bs.length j).2.2]
    split
    · rfl
    · rename_i hne
      rw [h.slot j hne, h.formed.writes j hj]
  · rw [mem_flush, Cache.flush_block, hm, h.file]
    by_cases hne : j = bs.length
    · subst hne
      rw [List.getElem?_concat_length] at hjb
      rw [if_pos ⟨rfl,hw'⟩, h.last]
      exact ⟨Option.some.inj hjb,Option.some.inj hjb⟩
    · have hjlt : j < bs.length := by
        have := (List.getElem?_eq_some_iff.1 hjb).1
        omega
      rw [List.getElem?_append_left hjlt] at hjb
      rw [if_neg (by omega), h.slot j hne]
      exact h.formed.mem j b' hjb
  · have hfl : (k1.flush bs.length).file.size = max k1.file.size (bs.length + 1) := by
      unfold Cache.flush
      rw [if_pos hw', hm]
      rfl
    rw [hfl, h.file, h.formed.size, hlen]
    omega

end Draft

theorem Formed.label (h : Formed k bs) (hlt : bs.length < ZMXBLK) : ∃ k1, Draft k bs k1 (k.slot bs.length).mem 0 ∧
    ∀ c, enact e (ask (.label bs.length)) ⟨c,k⟩ = .done ((), ⟨c,k1⟩) := by
  have hlen : ((List.range bs.length).map Int.ofNat).length = bs.length := by simp
  refine ⟨k.label bs.length bs.length,⟨h,hlt,fun j hj => slot_label hj,?_,h.lru,rfl,hlt⟩,fun c => ?_⟩
  · change Function.update k.slot bs.length _ bs.length = _
    rw [Function.update_self, h.busy _ hlt, h.writes _ hlt]
  · have hlabel := (Laid.label (e := e) (s := ⟨c,k⟩) h.laid (hlen.symm ▸ hlt) (b := bs.length) (Int.natCast_nonneg _)
      (by simp)).1
    rw [hlen] at hlabel
    exact hlabel

namespace Draft

theorem enact_bsetbk (h : Draft k bs k1 b w) (type misc nxblk nkeys nblks dupblk : Int) :
    ∃ k2, Draft k bs k2 (b.setBk type misc nxblk nkeys nblks dupblk) (w + 1 + 1) ∧
      ∀ c, enact e (bsetbk bs.length type misc nxblk nkeys nblks dupblk) ⟨c,k1⟩ = .done ((), ⟨c,k2⟩) := by
  refine ⟨k1.setbk bs.length type misc nxblk nkeys nblks dupblk,?_,fun c =>
    Btlib.enact_bsetbk (s := ⟨c,k1⟩) h.findSlot type misc nxblk nkeys nblks dupblk⟩
  refine h.bqmove.bqmove.setSlot ?_
  rw [h.last]

theorem enact_brdblk (h : Draft k bs k1 b w) :
    ∃ k2, Draft k bs k2 b w ∧ ∀ c, enact e (brdblk bs.length) ⟨c,k1⟩ = .done (some b, ⟨c,k2⟩) := by
  refine ⟨k1.bqmove bs.length,h.bqmove,fun c => ?_⟩
  rw [Btlib.enact_brdblk (s := ⟨c,k1⟩) h.findSlot, h.last]

theorem enact_wr (h : Draft k bs k1 b w) (b' : Block) (n : Int) :
    ∃ k2, Draft k bs k2 b' (w + n) ∧ ∀ c, enact e (wr bs.length b' n) ⟨c,k1⟩ = .done ((), ⟨c,k2⟩) :=
  ⟨_,h.setSlot rfl,fun c => Btlib.enact_wr (s := ⟨c,k1⟩) h.findSlot b' n⟩

theorem enact_bwrblk (h : Draft k bs k1 b w) (hw : 0 < w) :
    ∃ k2, Formed k2 (bs ++ [b]) ∧ ∀ c, enact e (bwrblk bs.length) ⟨c,k1⟩ = .done (true, ⟨c,k2⟩) :=
  ⟨_,h.flush hw,fun c => enact_wrblk (s := ⟨c,k1⟩) h.findSlot⟩

end Draft

end Draft

section Create

theorem Block.getInf_superKeys [Build] (b : Block) :
    (superKeys (b.setBk ZROOT 0 ZNULL 2 2 ZNULL)).getInf .ZBTVER = ZVERS := by
  have hver : (superKeys (b.setBk ZROOT 0 ZNULL 2 2 ZNULL)).btver = ZVERS := rfl
  have hhdr : (superKeys (b.setBk ZROOT 0 ZNULL 2 2 ZNULL)).bthdr = if Build.LFS then LFSHDR else b.bthdr := rfl
  rw [Block.getInf, hver, hhdr, if_neg]
  rintro ⟨hlfs,hne⟩
  rw [if_pos hlfs] at hne
  exact hne rfl

variable [Build] {e : Nat → Bool × Disk} {s : Seat} {bs : List Block} {nkeys : Int}

-- The handle when the superroot is made, and when the default root is.
def Ctx.founding (c : Ctx) : Ctx :=
  { c with super := { c.super with sblkmx := 2, snfree := 0, sfreep := ZNULL, smod := 1, smode := 0 } }

def Ctx.founded (c : Ctx) : Ctx :=
  { c with super := { c.super with scroot := DEFAULT_ROOT, scclas := keycpy (key "$$default") } }

theorem Formed.super (h : Formed s.cache []) (hslots : 3 ≤ ZMXBLK) (nkeys : Int) :
    ∃ k, ∃ b : Block, Formed k [superKeys (b.setBk ZROOT 0 ZNULL 2 2 ZNULL)] ∧
      enact e (btcrtSuper nkeys) s = enact e (btcrtDefault nkeys) ⟨s.ctx.founding,k⟩ := by
  obtain ⟨k1,h1,hlabel⟩ := h.label (e := e) (by simpa using by omega)
  obtain ⟨k2,h2,hset⟩ := h1.enact_bsetbk (e := e) ZROOT 0 ZNULL 2 2 ZNULL
  obtain ⟨k3,h3,hrd⟩ := h2.enact_brdblk (e := e)
  obtain ⟨k4,h4,hwr⟩ := h3.enact_wr (e := e) (superKeys ((s.cache.slot 0).mem.setBk ZROOT 0 ZNULL 2 2 ZNULL)) 0
  obtain ⟨k5,h5,hfl⟩ := h4.enact_bwrblk (e := e) (by decide)
  refine ⟨k5,_,h5,?_⟩
  unfold btcrtSuper
  refine (enact_then (enact_setSuper _)).trans ((enact_then (hlabel _)).trans ((enact_then enact_get).trans ?_))
  refine (enact_then (hset _)).trans ((enact_then (hrd _)).trans ((enact_then (hwr _)).trans ((enact_then (hfl _)).trans ?_)))
  rw [if_neg (by decide)]
  rfl

-- The slot of the default root is marked, and that is not seen.
def Cache.rooted (k : Cache) : Cache := ((k.bqmove 1).bqmove 1).setSlot 1 fun t => { t with busy := true }

omit [Build] in
theorem Cache.slot_rooted (k : Cache) (i : Nat) : (k.rooted.slot i).inmem = (k.slot i).inmem ∧
    (k.rooted.slot i).mem = (k.slot i).mem ∧ (k.rooted.slot i).writes = (k.slot i).writes := by
  unfold Cache.rooted
  rw [Cache.slot_setSlot]
  split
  · rename_i hi
    subst hi
    exact ⟨rfl,rfl,rfl⟩
  · exact ⟨rfl,rfl,rfl⟩

theorem Formed.default {b0 : Block} (h : Formed s.cache [b0]) (hslots : 3 ≤ ZMXBLK) (hfew : (nkeys.tdiv ZMXKEY - 2).toNat = 0) :
    ∃ k, ∃ b : Block, Formed k [b0,b.setBk ZROOT 0 ZNULL 0 DEFAULT_ROOT ZNULL] ∧
      enact e (btcrtDefault nkeys) s = enact e (do leave; btgerr) ⟨s.ctx.founded,k.rooted⟩ := by
  obtain ⟨k1,h1,hlabel⟩ := h.label (e := e) (by simpa using by omega)
  obtain ⟨k2,h2,hset⟩ := h1.enact_bsetbk (e := e) ZROOT 0 ZNULL 0 DEFAULT_ROOT ZNULL
  obtain ⟨k3,h3,hfl⟩ := h2.enact_bwrblk (e := e) (by decide)
  have hfind : k3.findSlot DEFAULT_ROOT = some 1 := h3.findSlot (i := 1) (Nat.lt_succ_self 1)
  refine ⟨k3,_,h3,?_⟩
  unfold btcrtDefault
  refine (enact_then (hlabel _)).trans ((enact_then (enact_setSuper _)).trans ((enact_then (enact_setSuper _)).trans ?_))
  refine (enact_then (hset _)).trans ((enact_then (hfl _)).trans ?_)
  rw [if_neg (by decide)]
  refine (enact_then (enact_brdblk (s := ⟨_,k3⟩) hfind)).trans ?_
  refine (enact_then (enact_bsetbs (s := ⟨_,k3.bqmove 1⟩) hfind true)).trans ?_
  rw [hfew]
  split <;> rfl

theorem Formed.blank {k : Cache} {b0 b1 : Block} (h : Formed k [superKeys (b0.setBk ZROOT 0 ZNULL 2 2 ZNULL),
    b1.setBk ZROOT 0 ZNULL 0 DEFAULT_ROOT ZNULL]) {c : Ctx} (hx : c.super.sblkmx = 2) (hp : c.super.sfreep = ZNULL) :
    Blank ⟨c,⟨k.view,k.file.size⟩⟩ := by
  have h0 : k.view ZSUPER = _ := h.view (i := 0) rfl
  have h1 : k.view DEFAULT_ROOT = _ := h.view (i := 1) rfl
  refine ⟨h.size,hx,hp,?_,?_,?_,?_,?_⟩ <;> dsimp only
  · rw [h0]
    exact ⟨rfl,⟨rfl,rfl,trivial⟩,rfl,rfl,rfl,trivial⟩
  · rw [h0]
    rfl
  · rw [h1]
    rfl
  · rw [h1]
    rfl
  · rw [h1]
    rfl

theorem Formed.opened {k : Cache} {b0 b1 : Block} (h : Formed k [superKeys (b0.setBk ZROOT 0 ZNULL 2 2 ZNULL),
    b1.setBk ZROOT 0 ZNULL 0 DEFAULT_ROOT ZNULL]) (hcap : 2 ≤ ZMXKEY) {c : Ctx} (ho : c.isopen = true) (hs : c.shared = false)
    (hl : c.lckcnt = 1) (hx : c.super.sblkmx = 2) (hp : c.super.sfreep = ZNULL) (hd : 0 < c.super.smod)
    (hmode : c.super.smode = 0) (hroot : c.super.scroot = DEFAULT_ROOT) :
    Opened c k.rooted [] (fun _ => none) 2 0 := by
  have h1 : 1 < ZMXBLK := by
    have := h.length
    exact this
  have hk := h.keeps.alike (h.keeps.alike_bqmove h1)
  have hmark : k.rooted.Keeps (insert DEFAULT_ROOT ∅) none :=
    (hk.alike (hk.alike_bqmove h1)).mark h1 ((h.inmem 1 h1).trans (if_pos (Nat.lt_succ_self 1))) true fun _ => by decide
  have hbacked : k.rooted.Backed ⟨∅, none, k.file.size, true, none, none⟩ := h.backed.congr
    (fun i => (k.slot_rooted i).1) (fun i => (k.slot_rooted i).2.1) (fun i => (k.slot_rooted i).2.2) rfl
  have hview : k.rooted.view = k.view := funext fun b =>
    Cache.view_congr (fun i => (k.slot_rooted i).1) (fun i => (k.slot_rooted i).2.1) fun _ => rfl
  have hsuper : k.view ZSUPER = _ := h.view (i := 0) rfl
  have hblank : Blank ⟨c,⟨k.rooted.view,k.rooted.file.size⟩⟩ := hview ▸ h.blank hx hp
  refine ⟨⟨hs,hx.trans h.size.symm,⟨_,hmark,le_rfl⟩,hbacked⟩,hl,⟨hd.le,fun hm => absurd hm hd.ne'⟩,?_,1,namesTree,[],
    [DEFAULT_ROOT],hroot ▸ hblank.catalog hcap,?_,⟨ho,hs,hmode⟩,1,emptyTree,[],?_,?_⟩
  · rw [hview, hsuper]
    exact b0.getInf_superKeys
  · rw [inorder_namesTree]
    exact le_rfl
  · have hat : (⟨c,⟨k.rooted.view,k.rooted.file.size⟩⟩ : St).at DEFAULT_ROOT = ⟨c,⟨k.rooted.view,k.rooted.file.size⟩⟩ := by
      rw [St.at, ← hroot]
    rw [ids_namesTree]
    exact hat ▸ hblank.plain
  · rw [inorder_emptyTree]
    exact le_rfl

theorem btcrt_opened (hcap : 2 ≤ ZMXKEY) (hslots : 3 ≤ ZMXBLK) (hl : s.cache.labelled < ZMXBLK)
    (hlock : e s.cache.turn = (true, Disk.empty)) (hfew : nkeys < 3 * ZMXKEY) :
    ∃ s', enact e (btcrt nkeys false) s = .done (0, s') ∧ Opened s'.ctx s'.cache [] (fun _ => none) 2 0 := by
  have hnone : (nkeys.tdiv ZMXKEY - 2).toNat = 0 := by
    have hpos : (0 : Int) < ZMXKEY := by omega
    have hlt : nkeys.tdiv ZMXKEY < 3 := by
      rcases le_total 0 nkeys with h0 | h0
      · rw [Int.tdiv_eq_ediv_of_nonneg h0]
        exact Int.ediv_lt_of_lt_mul hpos hfew
      · have hneg : 0 ≤ (-nkeys).tdiv ZMXKEY := Int.tdiv_nonneg (by omega) hpos.le
        rw [Int.neg_tdiv] at hneg
        omega
    omega
  have h : Formed (s.begun false).cache [] :=
    .initcntrl (k := { s.cache with turn := s.cache.turn + 1, file := Disk.empty }) hl rfl
  obtain ⟨k0,b0,h0,hsuper⟩ := h.super (e := e) hslots nkeys
  obtain ⟨k1,b1,h1,hdefault⟩ := Formed.default (e := e) (s := ⟨(s.begun false).ctx.founding,k0⟩) h0 hslots hnone
  have hleave : enact e (do leave; btgerr) ⟨(s.begun false).ctx.founding.founded,k1.rooted⟩ =
      .done (0, ⟨(s.begun false).ctx.founding.founded,k1.rooted⟩) := rfl
  exact ⟨_,(enact_btcrt hlock nkeys false).trans (hsuper.trans (hdefault.trans hleave)),
    h1.opened hcap rfl rfl rfl rfl rfl Int.one_pos rfl rfl⟩

-- From its creation on a file keeps its map: calls on the new handle, the close, and any sessions afterwards.
theorem created_like_map (hcap : 8 ≤ ZMXKEY) (hslots : 3 ≤ ZMXBLK) (hnames : 7 ≤ FUEL) (hl : s.cache.labelled < ZMXBLK)
    (hlock : e s.cache.turn = (true, Disk.empty)) (hfew : nkeys < 3 * ZMXKEY) :
    ∃ s', enact e (btcrt nkeys false) s = .done (0, s') ∧
      ∀ cs : List KeyCall, (∀ call ∈ cs, call.key.length ≤ 31) → 2 * cs.length + 3 ≤ FUEL →
        (∀ d os, s'.cache.Shows d → KeyCall.Met os cs ⟨s'.ctx,d⟩ fun _ => none) →
          ((KeyCall.session cs s'.ctx).run Cache.alone s'.cache).Ends Stops fun r =>
            r.1.1 = ((KeyCall.ofMaps (fun _ => none) cs).1, 0) ∧
              ∀ css rs f', History (KeyCall.ofMaps (fun _ => none) cs).2 r.2.file css rs f' →
                (∀ cs ∈ css, ∀ call ∈ cs, call.key.length ≤ 31) →
                2 * (cs.length + css.flatten.length) + 3 ≤ FUEL →
                  rs = (KeyCall.ofSessions (KeyCall.ofMaps (fun _ => none) cs).2 css).1 ∧
                    Saved f' [] (KeyCall.ofSessions (KeyCall.ofMaps (fun _ => none) cs).2 css).2 2
                      (cs.length + css.flatten.length) := by
  obtain ⟨s',hrun,hopen⟩ := btcrt_opened (by omega) hslots hl hlock hfew
  refine ⟨s',hrun,fun cs hkeys hfuel hmet => ?_⟩
  have hsession := hopen.ends_session Cache.mirrors_alone hcap hslots cs hkeys (by omega) hmet
  refine hsession.mono (fun o k he => ⟨he.1,fun d hd hn => ⟨_,he.2 d hd hn⟩⟩) ?_
  rintro ⟨⟨r,c⟩,k⟩ ⟨hr,-,hsaved,-⟩
  rw [Nat.zero_add] at hsaved
  refine ⟨hr,fun css rs f' hist hkeys' hfuel' => ?_⟩
  obtain ⟨hrs,hsaved',-⟩ := sessions_like_map hcap hslots hist hsaved (by omega) hkeys' hfuel'
  exact ⟨hrs,hsaved'⟩

end Create

section Run

local instance createBuild : Build := build32 100

attribute [local irreducible] exec KeyCall.session btcrt

theorem lived_idle : ((enact (fun _ => (true, Disk.empty)) (btcrt 44 false) Seat.idle).result.any fun q =>
    ((KeyCall.session filled q.2.ctx).run Cache.alone q.2.cache).result.any fun r =>
      decide ((r.2.file.block ZSUPER).misc ≠ LFSHDR) &&
        ((KeyCall.reopened halved St.fresh.ctx).run Cache.alone (Cache.clear r.2.file)).result.isSome) = true := by
  decide +kernel

theorem created_like_map_idle : ∃ s' r rs f',
    enact (fun _ => (true, Disk.empty)) (btcrt 44 false) Seat.idle = .done (0, s') ∧
      (KeyCall.session filled s'.ctx).run Cache.alone s'.cache = .done r ∧ r.1.1 = (List.replicate 23 (0, none), 0) ∧
        History (KeyCall.ofMaps (fun _ => none) filled).2 r.2.file [halved] rs f' ∧
          rs = [(0, List.replicate 12 (0, none) ++ [(0, some 12)], 0)] ∧
            Saved f' [] (KeyCall.ofSessions (KeyCall.ofMaps (fun _ => none) filled).2 [halved]).2 2 36 := by
  obtain ⟨s',hrun,hlife⟩ := created_like_map (s := Seat.idle) (e := fun _ => (true, Disk.empty)) (by decide) (by decide)
    (by decide) (by decide) rfl (show (44 : Int) < 3 * ZMXKEY by decide)
  have hlived := lived_idle
  rw [hrun, Prog.Outcome.result, Option.any_some] at hlived
  obtain ⟨⟨⟨r,c1⟩,k1⟩,hr,hlived⟩ := (Option.any_eq_true _ _).1 hlived
  obtain ⟨hmisc,hsome⟩ := Bool.and_eq_true_iff.1 hlived
  obtain ⟨⟨⟨r',c2⟩,k2⟩,hr'⟩ := Option.isSome_iff_exists.1 hsome
  have hr := Prog.Outcome.result_eq_some.1 hr
  have hsession := hlife filled (by decide) (by decide) fun _ _ _ => KeyCall.met_of_few _ few_none (by decide)
  rw [hr] at hsession
  obtain ⟨hans,hafter⟩ := hsession
  have hist : History (KeyCall.ofMaps (fun _ => none) filled).2 k1.file [halved] [r'] k2.file :=
    .cons (k := Cache.clear k1.file) (show 0 < ZMXBLK by decide) (of_decide_eq_true hmisc)
      (fun _ _ _ _ _ => KeyCall.met_of_few _ (few_none.ofMaps filled) (by decide))
      (Prog.Outcome.result_eq_some.1 hr') (.nil _ _)
  obtain ⟨hrs,hsaved⟩ := hafter [halved] [r'] k2.file hist (by decide) (by decide)
  refine ⟨s',_,[r'],k2.file,hrun,hr,hans.trans ?_,hist,hrs.trans ?_,hsaved⟩ <;> decide +kernel

end Run

end Btlib
