import Btlib.Cache.Enact
import Btlib.Index.Refine

namespace Btlib

section Create

variable [Build] {e : Nat → Bool × Disk} {s s' : Seat} {k : Cache} {l : List Int} {blk b : Int} {i j m : Nat}
  {shared : Bool}

omit [Build] in
theorem flush_block (hi : (k.slot i).inmem < 2) (hb : 2 ≤ b) : (k.flush i).file.block b = k.file.block b := by
  unfold Cache.flush
  split
  · exact Function.update_of_ne (by omega) _ _
  · rfl

omit [Build] in
theorem flush_size (k : Cache) (i : Nat) : k.file.size ≤ (k.flush i).file.size := by
  unfold Cache.flush
  split
  · exact Int.le_max_left _ _
  · exact Int.le_refl _

omit [Build] in
theorem flush_slot (hne : j ≠ i) : (k.flush i).slot j = k.slot j := by
  unfold Cache.flush
  split
  · exact Function.update_of_ne hne _ _
  · rfl

omit [Build] in
theorem mem_flush (k : Cache) (i j : Nat) : ((k.flush i).slot j).mem = (k.slot j).mem := by
  rcases eq_or_ne j i with rfl | hne
  · unfold Cache.flush
    split
    · simp only [Cache.setSlot, Function.update_self]
    · rfl
  · rw [flush_slot hne]

-- The blocks made so far are all but one forgotten: the slot they are made in is labelled for the last of them.
def madeIn (m : Nat) : List Int := 0 :: 1 :: if m = 0 then [] else [(m : Int) + 1]

omit [Build] in
theorem madeIn_succ (m : Nat) : madeIn (m + 1) = [0,1] ++ [(m : Int) + 2] := by
  have hm : ((m + 1 : Nat) : Int) + 1 = (m : Int) + 2 := by omega
  simp only [madeIn, Nat.succ_ne_zero, if_false, hm, List.cons_append, List.nil_append]

-- A handle that is being created, when `m` blocks of the free list are made.
structure Made (s : Seat) (shared : Bool) (m : Nat) : Prop where
  laid : Laid s.cache (madeIn m)
  dup : (s.cache.slot 1).mem.nxdup = ZNULL
  file : ∀ b, 2 ≤ b → s.cache.file.block b = Block.blank
  slot : 0 < m → s.cache.labelled = 2 ∧ (s.cache.slot 2).mem.btype = ZFREE ∧
    (s.cache.slot 2).mem.nxblk = (if m = 1 then ZNULL else (m : Int)) ∧ 0 < (s.cache.slot 2).writes
  err : s.ctx.err.qerror = 0
  shared : s.ctx.shared = shared
  lckcnt : s.ctx.lckcnt = 1
  root : s.ctx.super.scroot = 1
  blkmx : s.ctx.super.sblkmx = m + 2
  nfree : s.ctx.super.snfree = m
  freep : s.ctx.super.sfreep = if m = 0 then ZNULL else (m : Int) + 1
  mod : 0 < s.ctx.super.smod

def Cache.label (k : Cache) (i : Nat) (blk : Int) : Cache :=
  { k.setSlot i (fun s => { s with inmem := blk }) with labelled := i }

omit [Build] in
theorem slot_label (hne : j ≠ i) : (k.label i blk).slot j = k.slot j := Function.update_of_ne hne _ _

theorem Laid.label (h : Laid s.cache l) (hlen : l.length < ZMXBLK) (h0 : 0 ≤ b) (hb : b ∉ l) :
    enact e (ask (.label b)) s = .done ((), { s with cache := s.cache.label l.length b }) ∧
      Laid (s.cache.label l.length b) (l ++ [b]) := by
  have hask : cached e (.label b) s.cache = some ((), s.cache.label l.length b) := by
    simp only [cached, h.bgtslt hlen, Option.map_some]
    rfl
  have hnew := Laid.last (a := 0) (f := fun s => { s with inmem := b }) (Or.inr h) hlen h0 hb (fun _ => rfl) fun _ => rfl
  exact ⟨enact_ask hask,hnew.inmem,hnew.writes,hnew.nodup,hnew.nonneg,hnew.length⟩

theorem enact_bmkfre (h : s.cache.findSlot blk = some i) (hr : s.cache.findSlot s.ctx.super.scroot = some j)
    (hd : (s.cache.slot j).mem.nxdup = ZNULL) (hn : 0 ≤ blk) :
    ∃ k : Cache, k.slot = s.cache.slot ∧ k.file = s.cache.file ∧ k.labelled = s.cache.labelled ∧
      enact e (bmkfre blk) s = .done ((), {
        ctx := { s.ctx with super := { s.ctx.super with
          sfreep := blk, snfree := s.ctx.super.snfree + 1, smod := s.ctx.super.smod + 1 } }
        cache := k.setbk i ZFREE 0 s.ctx.super.sfreep 0 0 ZNULL }) := by
  have hne : ¬ (ZNULL : Int) = blk := by
    change ¬ (-1 : Int) = blk
    omega
  have h1 : (s.cache.bqmove i).findSlot blk = some i := h
  have hr1 : (s.cache.bqmove i).findSlot s.ctx.super.scroot = some j := hr
  have h2 : ((s.cache.bqmove i).bqmove j).findSlot blk = some i := h
  have hd1 : ((s.cache.bqmove i).slot j).mem.nxdup = ZNULL := hd
  simp only [bmkfre, enact_bind, enact_get, Prog.Outcome.bind_done, enact_bgtinf h, Block.getInf_ZBTYPE, enact_ite]
  by_cases htype : (s.cache.slot i).mem.btype = ZDUP
  · refine ⟨(s.cache.bqmove i).bqmove j,rfl,rfl,rfl,?_⟩
    simp only [if_pos htype, enact_bgtinf (s := ⟨s.ctx,s.cache.bqmove i⟩) hr1, Block.getInf_ZNXDUP,
      Prog.Outcome.bind_done, hd1, if_neg hne,
      enact_bsetbk (s := ⟨s.ctx,(s.cache.bqmove i).bqmove j⟩) h2, enact_setSuper]
  · refine ⟨s.cache.bqmove i,rfl,rfl,rfl,?_⟩
    simp only [if_neg htype, Prog.Outcome.bind_done,
      enact_bsetbk (s := ⟨s.ctx,s.cache.bqmove i⟩) h1, enact_setSuper]

-- The slot is labelled for the next block, whatever it holds.
theorem Made.label (h : Made s shared m) (hslots : 3 ≤ ZMXBLK) :
    ∃ k, enact e (if (m : Int) + 2 = 2 then ask (.label (m + 2)) else ask (.relabel (m + 2))) s =
        .done ((), { s with cache := k }) ∧
      Laid k (madeIn (m + 1)) ∧ k.labelled = 2 ∧ k.slot 1 = s.cache.slot 1 ∧ k.file = s.cache.file ∧
      0 ≤ (k.slot 2).writes := by
  have hlen : ([0,1] : List Int).length < ZMXBLK := hslots
  have hmade := madeIn_succ m
  have hmem : (m : Int) + 2 ∉ ([0,1] : List Int) := by
    simp only [List.mem_cons, List.not_mem_nil, or_false]
    omega
  rcases Nat.eq_zero_or_pos m with rfl | hpos
  · have hlaid : Laid s.cache [0,1] := h.laid
    obtain ⟨hask,hnew⟩ := hlaid.label (e := e) hlen (b := 2) (by decide) hmem
    refine ⟨_,hask,?_,rfl,slot_label (show 1 ≠ 2 by decide),rfl,?_⟩
    · rw [hmade]
      exact hnew
    · simp only [Cache.label, Cache.setSlot]
      exact hlaid.writes 2 hslots
  · obtain ⟨hl,-⟩ := h.slot hpos
    have hlaid : Laid s.cache ([0,1] ++ [(m : Int) + 1]) := by
      have := h.laid
      simpa only [madeIn, if_neg hpos.ne', List.cons_append, List.nil_append] using this
    have hask : cached e (.relabel ((m : Int) + 2)) s.cache = some ((),
        s.cache.setSlot 2 fun s => { s with inmem := (m : Int) + 2 }) := by
      simp only [cached, hl]
    have hnew := Laid.last (f := fun s => { s with inmem := (m : Int) + 2 }) (Or.inl hlaid) hlen (by omega) hmem
      (fun _ => rfl) fun _ => rfl
    refine ⟨s.cache.setSlot 2 fun s => { s with inmem := (m : Int) + 2 },?_,?_,hl,
      slot_setSlot (show 1 ≠ 2 by decide),rfl,?_⟩
    · rw [if_neg (by omega)]
      exact enact_ask hask
    · rw [hmade]
      exact hnew
    · simp only [Cache.setSlot, Function.update_self]
      exact hlaid.writes 2 hslots

theorem freeListLoop_succ (n : Nat) (i : Int) : freeListLoop (n + 1) i =
    (if i = 2 then ask (.label i) else ask (.relabel i)) >>= fun _ => (do
      bmkfre i
      setSuper fun p => { p with sblkmx := p.sblkmx + 1 }
      freeListLoop n (i + 1)) := by
  rw [freeListLoop]
  split <;> rfl

theorem Made.step (h : Made s shared m) (hslots : 3 ≤ ZMXBLK) :
    ∃ s', (∀ n, enact e (freeListLoop (n + 1) (m + 2)) s = enact e (freeListLoop n (m + 2 + 1)) s') ∧
      Made s' shared (m + 1) := by
  obtain ⟨k,hask,hlaid,hl,hroot,hfile,hw⟩ := h.label (e := e) hslots
  have hget0 : (madeIn (m + 1))[2]? = some ((m : Int) + 2) := by
    rw [madeIn_succ]
    rfl
  have hfind := hlaid.findSlot hget0
  have hrfind : k.findSlot s.ctx.super.scroot = some 1 := by
    rw [h.root]
    exact hlaid.findSlot rfl
  have hdup : (k.slot 1).mem.nxdup = ZNULL := by
    rw [hroot]
    exact h.dup
  obtain ⟨k',hslot,hfile',hl',hmk⟩ := enact_bmkfre (e := e) (s := ⟨s.ctx,k⟩) hfind hrfind hdup (by omega)
  have hlaid' : Laid k' (madeIn (m + 1)) :=
    ⟨by rw [hslot]; exact hlaid.inmem,by rw [hslot]; exact hlaid.writes,hlaid.nodup,hlaid.nonneg,hlaid.length⟩
  refine ⟨⟨{ s.ctx with super := { s.ctx.super with
      sfreep := (m : Int) + 2, snfree := s.ctx.super.snfree + 1, smod := s.ctx.super.smod + 1,
      sblkmx := s.ctx.super.sblkmx + 1 } },k'.setbk 2 ZFREE 0 s.ctx.super.sfreep 0 0 ZNULL⟩,fun n => ?_,?_⟩
  · rw [freeListLoop_succ]
    simp only [enact_bind, hask, Prog.Outcome.bind_done, hmk, enact_setSuper]
  · refine ⟨hlaid'.setbk 2 _ _ _ _ _ _,?_,?_,fun _ => ⟨?_,?_,?_,?_⟩,h.err,h.shared,h.lckcnt,h.root,?_,?_,?_,?_⟩
    · rw [Cache.slot_setbk (by decide), hslot]
      exact hdup
    · intro b hb
      have := h.file b hb
      rw [← hfile, ← hfile'] at this
      exact this
    · exact hl'.trans hl
    · rw [Cache.mem_setbk]
      rfl
    · rw [Cache.mem_setbk]
      change s.ctx.super.sfreep = _
      rw [h.freep]
      rcases Nat.eq_zero_or_pos m with rfl | hpos
      · rfl
      · rw [if_neg hpos.ne', if_neg (by omega)]
        simp
    · rw [Cache.writes_setbk, hslot]
      change 0 < (k.slot 2).writes + 1 + 1
      omega
    · change s.ctx.super.sblkmx + 1 = _
      rw [h.blkmx]
      omega
    · change s.ctx.super.snfree + 1 = _
      rw [h.nfree]
      omega
    · change (m : Int) + 2 = _
      rw [if_neg (by omega)]
      omega
    · have := h.mod
      change 0 < s.ctx.super.smod + 1
      omega

theorem Made.loop (h : Made s shared m) (hslots : 3 ≤ ZMXBLK) (n : Nat) :
    ∃ s', enact e (freeListLoop n (m + 2)) s = .done ((), s') ∧ Made s' shared (m + n) := by
  induction n generalizing s m with
  | zero => exact ⟨s,rfl,h⟩
  | succ n ih =>
      obtain ⟨s1,hstep,h1⟩ := h.step (e := e) hslots
      obtain ⟨s2,hloop,h2⟩ := ih h1
      refine ⟨s2,?_,?_⟩
      · rw [hstep, show (m : Int) + 2 + 1 = ((m + 1 : Nat) : Int) + 2 by omega]
        exact hloop
      · rw [show m + (n + 1) = m + 1 + n by omega]
        exact h2

section Begin

theorem enact_initcntrl : enact e (ask .initcntrl) s = .done ((), { s with cache := s.cache.initcntrl }) := rfl

theorem enact_unlock : enact e (ask .unlock) s = .done (true, s) := rfl

theorem enact_wrall : enact e (ask .wrall) s =
    .done (true, { s with cache := (List.range ZMXBLK).foldl Cache.flush s.cache }) := rfl

theorem enact_lock (h : e s.cache.turn = (true, Disk.empty)) : enact e (ask .lock) s =
    .done (true, { s with cache := { s.cache with turn := s.cache.turn + 1, file := Disk.empty } }) := by
  have hask : cached e .lock s.cache =
      some (true, { s.cache with turn := s.cache.turn + 1, file := Disk.empty }) := by
    simp only [cached, h, if_true]
  exact enact_ask hask

theorem enact_block (h0 : s.ctx.lckcnt = 0) (hr : s.ctx.super.scroot = ZNULL)
    (h : e s.cache.turn = (true, Disk.empty)) : enact e block s = .done (true, {
      ctx := { s.ctx with lckcnt := 1 }
      cache := { s.cache with turn := s.cache.turn + 1, file := Disk.empty } }) := by
  have h1 : ¬ (0 : Int) < s.ctx.lckcnt := by omega
  simp only [block, enact_bind, enact_get, Prog.Outcome.bind_done, enact_ite, if_neg h1, enact_lock h, if_true, hr,
    ne_eq, not_true_eq_false, and_false, if_false, enact_modify, enact_pure]

-- A handle that is being created, with its first blocks in the cache.
structure Begun (s : Seat) (shared : Bool) (l : List Int) : Prop where
  laid : Laid s.cache l
  file : ∀ b, 2 ≤ b → s.cache.file.block b = Block.blank
  err : s.ctx.err.qerror = 0
  shared : s.ctx.shared = shared
  lckcnt : s.ctx.lckcnt = 1

-- The handle when its lock is asked for, and when it is granted.
def Seat.opening (s : Seat) (shared : Bool) : Seat where
  ctx :=
    { s.ctx with
      err := ⟨"",0,.none⟩, shared := shared, isopen := true, lckcnt := 0, lf := ⟨[],ZNULL,ZNULL,false,ZNULL⟩,
      super := { s.ctx.super with scroot := ZNULL } }
  cache := ({ s.cache with file := Disk.empty } : Cache).initcntrl

def Seat.begun (s : Seat) (shared : Bool) : Seat where
  ctx := { (s.opening shared).ctx with lckcnt := 1 }
  cache := { (s.opening shared).cache with turn := s.cache.turn + 1, file := Disk.empty }

theorem enact_btcrt (h : e s.cache.turn = (true, Disk.empty)) (nkeys : Int) (shared : Bool) :
    enact e (btcrt nkeys shared) s = enact e (btcrtSuper nkeys) (s.begun shared) := by
  have hblock := enact_block (e := e) (s := s.opening shared) rfl rfl h
  have hto : enact e (btcrt nkeys shared) s = (enact e block (s.opening shared)).bind fun r =>
      enact e (if ¬ r.1 then (do
        bterr "BTCRT" QBUSY .none
        bacfre
        btgerr) else btcrtSuper nkeys) r.2 := by
    simp only [btcrt, enact_bind, enact_bterr0, Prog.Outcome.bind_done, enact_ite, setShared,
      enact_modify, bacini, bclrlf, enact_setLf, setRoot, enact_setSuper]
    rfl
  rw [hto, hblock]
  rfl

theorem begun_begun (s : Seat) (shared : Bool) : Begun (s.begun shared) shared [] :=
  have h := laid_initcntrl { s.cache with file := Disk.empty }
  ⟨⟨h.inmem,h.writes,h.nodup,h.nonneg,h.length⟩,fun _ _ => rfl,rfl,rfl,rfl⟩

namespace Begun

theorem setbk (h : Begun s shared l) (i : Nat) (type misc nxblk nkeys nblks dupblk : Int) :
    Begun { s with cache := s.cache.setbk i type misc nxblk nkeys nblks dupblk } shared l :=
  ⟨h.laid.setbk i type misc nxblk nkeys nblks dupblk,h.file,h.err,h.shared,h.lckcnt⟩

theorem bqmove (h : Begun s shared l) (i : Nat) : Begun { s with cache := s.cache.bqmove i } shared l :=
  ⟨h.laid.bqmove i,h.file,h.err,h.shared,h.lckcnt⟩

theorem setSlot (h : Begun s shared l) (i : Nat) {f : Slot → Slot} (hm : ∀ s, (f s).inmem = s.inmem)
    (hw : ∀ s, 0 ≤ s.writes → 0 ≤ (f s).writes) : Begun { s with cache := s.cache.setSlot i f } shared l :=
  ⟨h.laid.setSlot i (hm _) (hw _),h.file,h.err,h.shared,h.lckcnt⟩

theorem flush (h : Begun s shared l) (hi : l[i]? = some b) (hlt : b < 2) :
    Begun { s with cache := s.cache.flush i } shared l :=
  ⟨h.laid.flush i,fun c hc => (flush_block (by rw [h.laid.inmem_eq hi]; exact hlt) hc).trans (h.file c hc),h.err,
    h.shared,h.lckcnt⟩

theorem withSuper (h : Begun s shared l) (p : Super) : Begun { s with ctx.super := p } shared l :=
  ⟨h.laid,h.file,h.err,h.shared,h.lckcnt⟩

theorem label (h : Begun s shared l) (hlen : l.length < ZMXBLK) (h0 : 0 ≤ b) (hb : b ∉ l) :
    enact e (ask (.label b)) s = .done ((), { s with cache := s.cache.label l.length b }) ∧
      Begun { s with cache := s.cache.label l.length b } shared (l ++ [b]) :=
  have hlabel := h.laid.label (e := e) hlen h0 hb
  ⟨hlabel.1,hlabel.2,h.file,h.err,h.shared,h.lckcnt⟩

end Begun

theorem Begun.super (h : Begun s shared []) (hslots : 3 ≤ ZMXBLK) (nkeys : Int) :
    ∃ s', enact e (btcrtSuper nkeys) s = enact e (btcrtDefault nkeys) s' ∧ Begun s' shared [0] ∧
      s'.ctx.super = { s.ctx.super with sblkmx := 2, snfree := 0, sfreep := ZNULL, smod := 1, smode := 0 } := by
  have h0 := h.withSuper { s.ctx.super with sblkmx := 2, snfree := 0, sfreep := ZNULL, smod := 1, smode := 0 }
  obtain ⟨hlabel,h1⟩ := h0.label (e := e) (b := ZSUPER) (by simp only [List.length_nil]; omega) (Int.le_refl 0)
    List.not_mem_nil
  have hset := enact_bsetbk (e := e) (h1.laid.findSlot (i := 0) rfl) ZROOT 0 ZNULL 2 2 ZNULL
  have h2 := h1.setbk 0 ZROOT 0 ZNULL 2 2 ZNULL
  have hrd := enact_brdblk (e := e) (h2.laid.findSlot (i := 0) rfl)
  have h3 := h2.bqmove 0
  generalize hb : (((((s.cache.label 0 0).setbk 0 ZROOT 0 ZNULL 2 2 ZNULL).slot 0).mem)) = b0 at hrd
  have hwr := enact_wr (e := e) (h3.laid.findSlot (i := 0) rfl) (superKeys b0) 0
  have h4 := h3.setSlot 0 (f := fun s => { s with mem := superKeys b0, writes := s.writes + 0 }) (fun _ => rfl)
    fun s hs => by
      change 0 ≤ s.writes + 0
      omega
  have hfl := enact_wrblk (e := e) (h4.laid.findSlot (i := 0) rfl)
  refine ⟨_,?_,h4.flush (i := 0) rfl (by decide),rfl⟩
  unfold btcrtSuper
  refine (enact_then (enact_setSuper _)).trans ((enact_then hlabel).trans ((enact_then enact_get).trans ?_))
  refine (enact_then hset).trans ((enact_then hrd).trans ((enact_then hwr).trans ((enact_then hfl).trans ?_)))
  rw [if_neg (by decide)]

theorem Begun.default (h : Begun s shared [0]) (hslots : 3 ≤ ZMXBLK) (hp : s.ctx.super.sblkmx = 2)
    (hn : s.ctx.super.snfree = 0) (hf : s.ctx.super.sfreep = ZNULL) (hd : 0 < s.ctx.super.smod) (nkeys : Int) :
    ∃ s', enact e (btcrtDefault nkeys) s = enact e (do
        (if nkeys ≠ 0 then freeListLoop (nkeys.tdiv ZMXKEY - 2).toNat 2 else pure ())
        leave
        btgerr) s' ∧ Made s' shared 0 := by
  obtain ⟨hlabel,h1⟩ := h.label (e := e) (b := DEFAULT_ROOT) (by simp only [List.length_cons, List.length_nil]; omega)
    (by decide) (by decide)
  have h2 := (h1.withSuper { s.ctx.super with scroot := DEFAULT_ROOT }).withSuper
    { s.ctx.super with scroot := DEFAULT_ROOT, scclas := keycpy (key "$$default") }
  have hset := enact_bsetbk (e := e) (h2.laid.findSlot (i := 1) rfl) ZROOT 0 ZNULL 0 DEFAULT_ROOT ZNULL
  have h3 := h2.setbk 1 ZROOT 0 ZNULL 0 DEFAULT_ROOT ZNULL
  have hfl := enact_wrblk (e := e) (h3.laid.findSlot (i := 1) rfl)
  have h4 := h3.flush (i := 1) rfl (by decide)
  have hrd := enact_brdblk (e := e) (h4.laid.findSlot (i := 1) rfl)
  have h5 := h4.bqmove 1
  have hbs := enact_bsetbs (e := e) (h5.laid.findSlot (i := 1) rfl) true
  have h6 := (h5.bqmove 1).setSlot 1 (f := fun s => { s with busy := true }) (fun _ => rfl) fun _ hs => hs
  refine ⟨_,?_,⟨h6.laid,?_,h6.file,fun h0 => absurd h0 (Nat.lt_irrefl 0),h6.err,h6.shared,h6.lckcnt,rfl,hp,hn,hf,hd⟩⟩
  · unfold btcrtDefault
    refine (enact_then hlabel).trans ((enact_then (enact_setSuper _)).trans ((enact_then (enact_setSuper _)).trans ?_))
    refine (enact_then hset).trans ((enact_then hfl).trans ?_)
    rw [if_neg (by decide)]
    refine (enact_then hrd).trans ((enact_then hbs).trans ?_)
    split <;> rfl
  · simp only [Cache.setSlot, Function.update_self]
    change ((Cache.flush _ 1).slot 1).mem.nxdup = ZNULL
    rw [mem_flush, Cache.mem_setbk]
    rfl

end Begin

section Leave

omit [Build] in
theorem flushes_block {is : List Nat} (h : ∀ i ∈ is, (k.slot i).inmem < 2) (hb : 2 ≤ b) :
    (is.foldl Cache.flush k).file.block b = k.file.block b := by
  induction is generalizing k with
  | nil => rfl
  | cons i is ih =>
      refine (ih fun j hj => ?_).trans (flush_block (h i List.mem_cons_self) hb)
      rw [(Cache.alike_flush k i).inmem]
      exact h j (List.mem_cons_of_mem _ hj)

omit [Build] in
theorem flushes_size (k : Cache) (is : List Nat) : k.file.size ≤ (is.foldl Cache.flush k).file.size := by
  induction is generalizing k with
  | nil => exact Int.le_refl _
  | cons i is ih => exact (flush_size k i).trans (ih _)

omit [Build] in
theorem flushes_slot {is : List Nat} (hj : j ∉ is) : (is.foldl Cache.flush k).slot j = k.slot j := by
  induction is generalizing k with
  | nil => rfl
  | cons i is ih =>
      refine (ih fun hm => hj (List.mem_cons_of_mem _ hm)).trans (flush_slot fun heq => hj ?_)
      rw [heq]
      exact List.mem_cons_self

theorem Laid.inmem_lt (h : Laid k (madeIn m)) (hi : i < ZMXBLK) (h2 : i ≠ 2) : (k.slot i).inmem < 2 := by
  rw [h.inmem i hi]
  match i with
  | 0 => exact (by decide : (0 : Int) < 2)
  | 1 => exact (by decide : (1 : Int) < 2)
  | i + 3 =>
      have hnull : (madeIn m).getD (i + 3) ZNULL = ZNULL := by
        rw [madeIn]
        split <;> rfl
      rw [hnull]
      decide

theorem Made.wrall (h : Made s shared m) (hslots : 3 ≤ ZMXBLK) (hpos : 0 < m) :
    ((List.range ZMXBLK).foldl Cache.flush s.cache).file.block (m + 1) = (s.cache.slot 2).mem ∧
      (m : Int) + 1 < ((List.range ZMXBLK).foldl Cache.flush s.cache).file.size ∧
      ∀ b : Int, 2 ≤ b → b ≠ m + 1 → ((List.range ZMXBLK).foldl Cache.flush s.cache).file.block b = Block.blank := by
  obtain ⟨a,c,hac⟩ := List.append_of_mem (List.mem_range.2 hslots)
  have hnodup := List.nodup_range (n := ZMXBLK)
  rw [hac] at hnodup
  have hnotin := (List.nodup_cons.1 (List.nodup_middle.1 hnodup)).1
  have hlt : ∀ i ∈ a ++ c, (s.cache.slot i).inmem < 2 := fun i hi => by
    refine h.laid.inmem_lt (List.mem_range.1 ?_) (ne_of_mem_of_not_mem hi hnotin)
    rw [hac]
    rcases List.mem_append.1 hi with hi | hi
    · exact List.mem_append_left _ hi
    · exact List.mem_append_right _ (List.mem_cons_of_mem _ hi)
  have hslot : (a.foldl Cache.flush s.cache).slot 2 = s.cache.slot 2 :=
    flushes_slot fun hm => hnotin (List.mem_append_left _ hm)
  have hfore : ∀ b, 2 ≤ b → (a.foldl Cache.flush s.cache).file.block b = Block.blank := fun b hb =>
    (flushes_block (fun i hi => hlt i (List.mem_append_left _ hi)) hb).trans (h.file b hb)
  have hin : (s.cache.slot 2).inmem = (m : Int) + 1 := h.laid.inmem_eq (by rw [madeIn, if_neg hpos.ne']; rfl)
  have hw := (h.slot hpos).2.2.2
  rw [hac, List.foldl_append, List.foldl_cons]
  have hflush : (a.foldl Cache.flush s.cache).flush 2 = { (a.foldl Cache.flush s.cache).setSlot 2 fun s =>
      { s with writes := 0 } with
        file := ((a.foldl Cache.flush s.cache).file.grow (m + 1)).put (m + 1) (s.cache.slot 2).mem } := by
    rw [Cache.flush, hslot, hin, if_pos (by omega)]
  have hrest : ∀ i ∈ c, (((a.foldl Cache.flush s.cache).flush 2).slot i).inmem < 2 := fun i hi => by
    rw [(Cache.alike_flush _ 2).inmem, (Cache.alike_flushes s.cache a).inmem]
    exact hlt i (List.mem_append_right _ hi)
  have hsize := flushes_size ((a.foldl Cache.flush s.cache).flush 2) c
  refine ⟨?_,?_,fun b hb hne => ?_⟩
  · rw [flushes_block hrest (by omega), hflush]
    exact Function.update_self ..
  · refine Int.lt_of_lt_of_le ?_ hsize
    rw [hflush]
    have := Int.le_max_right (a.foldl Cache.flush s.cache).file.size ((m : Int) + 1 + 1)
    exact Int.lt_of_lt_of_le (by omega) this
  · rw [flushes_block hrest hb, hflush]
    exact (Function.update_of_ne hne _ _).trans (hfore b hb)

-- What the handle sees of a block, in memory or in the file.
def Cache.seen (k : Cache) (blk : Int) : Option Block :=
  match k.findSlot blk with
  | some i => some (k.slot i).mem
  | none => k.file.read blk

-- A created handle, as far as its free list goes.
structure Left (e : Nat → Bool × Disk) (s : Seat) (m : Nat) : Prop where
  err : s.ctx.err.qerror = 0
  blkmx : s.ctx.super.sblkmx = m + 2
  nfree : s.ctx.super.snfree = m
  freep : s.ctx.super.sfreep = if m = 0 then ZNULL else (m : Int) + 1
  last : 0 < m → ∃ b, s.cache.seen (m + 1) = some b ∧ b.btype = ZFREE ∧ b.nxblk = if m = 1 then ZNULL else (m : Int)
  lost : ∀ c : Int, 2 ≤ c → c ≠ m + 1 → ∀ b, s.cache.seen c = some b → b.btype ≠ ZFREE
  take : m = 1 → ∃ s', enact e bgtfre s = .done (2, s') ∧ s'.ctx.err.qerror = 0

theorem enact_bgtfre {c : Block} (hp : s.ctx.super.sfreep = b) (h0 : 0 ≤ b)
    (hrd : enact e (brdblk b) s = .done (some c, ⟨s.ctx,k⟩)) (hf : k.findSlot b = some i) (hc : (k.slot i).mem = c)
    (htype : c.btype = ZFREE) : ∃ s', enact e bgtfre s = .done (b, s') ∧ s'.ctx.err = s.ctx.err := by
  have hne : ¬ b = ZNULL := by
    change ¬ b = -1
    omega
  have hf1 : (k.bqmove i).findSlot b = some i := hf
  have h1 := enact_bgtinf (e := e) (s := ⟨s.ctx,k⟩) hf .ZBTYPE
  have h2 := enact_bgtinf (e := e) (s := ⟨s.ctx,k.bqmove i⟩) hf1 .ZNXBLK
  have htype1 : ¬ (k.slot i).mem.btype ≠ ZFREE := by
    rw [hc]
    exact not_not.2 htype
  refine ⟨⟨{ s.ctx with super := { s.ctx.super with
    sfreep := (k.slot i).mem.nxblk, snfree := if 0 ≤ b then s.ctx.super.snfree - 1 else s.ctx.super.snfree,
    smod := s.ctx.super.smod + 1 } },(k.bqmove i).bqmove i⟩,?_,rfl⟩
  unfold bgtfre
  refine (enact_then enact_get).trans ?_
  rw [hp, if_neg hne]
  refine (enact_then hrd).trans ((enact_then h1).trans ?_)
  refine Eq.trans (enact_ite _ _ _) ((if_neg htype1).trans ?_)
  exact (enact_then h2).trans (enact_then (enact_setSuper _))

theorem Laid.enact_brdblk {c : Block} (h : Laid s.cache l) (hlen : l.length < ZMXBLK) (h0 : 0 ≤ b) (hb : b ∉ l)
    (hr : s.cache.file.read b = some c) :
    ∃ k, enact e (brdblk b) s = .done (some c, ⟨s.ctx,k⟩) ∧ k.findSlot b = some l.length ∧
      (k.slot l.length).mem = c := by
  have hnew := Laid.last (a := 0) (f := fun s => { s with inmem := b, mem := c }) (Or.inr h) hlen h0 hb (fun _ => rfl)
    fun _ => rfl
  have hrd : cached e (.rd b) s.cache = some ((some c, false),
      (s.cache.setSlot l.length fun s => { s with inmem := b, mem := c }).bqmove l.length) := by
    simp only [cached, Cache.brdblk, h.findSlot_none h0 hb, h.bgtslt hlen, Option.map_some, hr]
  refine ⟨(s.cache.setSlot l.length fun s => { s with inmem := b, mem := c }).bqmove l.length,?_,
    (hnew.bqmove l.length).findSlot (List.getElem?_concat_length ..),?_⟩
  · exact enact_then (enact_ask hrd)
  · change (Function.update s.cache.slot l.length _ l.length).mem = c
    rw [Function.update_self]

theorem Made.left (h : Made s shared m) : Left e s m := by
  refine ⟨h.err,h.blkmx,h.nfree,h.freep,fun hpos => ?_,fun c hc hne b hb => ?_,fun hm => ?_⟩
  · have hfind := h.laid.findSlot (i := 2) (b := (m : Int) + 1) (by rw [madeIn, if_neg hpos.ne']; rfl)
    obtain ⟨-,htype,hnext,-⟩ := h.slot hpos
    exact ⟨_,by rw [Cache.seen, hfind],htype,hnext⟩
  · have hmem : c ∉ madeIn m := by
      rw [madeIn]
      split <;> simp <;> omega
    rw [Cache.seen, h.laid.findSlot_none (by omega) hmem] at hb
    simp only [Disk.read, h.file c hc] at hb
    split at hb
    · obtain rfl := Option.some.inj hb
      decide
    · cases hb
  · subst hm
    have hfind := h.laid.findSlot (i := 2) (b := 2) rfl
    obtain ⟨-,htype,-,-⟩ := h.slot Nat.one_pos
    obtain ⟨s',hs',he⟩ := enact_bgtfre (e := e) (i := 2) h.freep (by decide) (Btlib.enact_brdblk hfind) hfind rfl htype
    exact ⟨s',hs',by rw [he, h.err]⟩

theorem enact_bwrsup (h : s.cache.findSlot ZSUPER = some i) : enact e bwrsup s = .done (true, { s with
    cache := (((s.cache.bqmove i).bqmove i).setbk i ZROOT s.ctx.super.snfree s.ctx.super.sfreep
      (s.cache.slot i).mem.nkeys s.ctx.super.sblkmx ZNULL).flush i }) := by
  have h1 : (s.cache.bqmove i).findSlot ZSUPER = some i := h
  have h2 : ((s.cache.bqmove i).bqmove i).findSlot ZSUPER = some i := h
  have hinf := enact_bgtinf (e := e) (s := ⟨s.ctx,s.cache.bqmove i⟩) h1 .ZNKEYS
  have hset := enact_bsetbk (e := e) (s := ⟨s.ctx,(s.cache.bqmove i).bqmove i⟩) h2 ZROOT s.ctx.super.snfree
    s.ctx.super.sfreep (s.cache.slot i).mem.nkeys s.ctx.super.sblkmx ZNULL
  have h3 : (((s.cache.bqmove i).bqmove i).setbk i ZROOT s.ctx.super.snfree s.ctx.super.sfreep
      (s.cache.slot i).mem.nkeys s.ctx.super.sblkmx ZNULL).findSlot ZSUPER = some i := by
    unfold Cache.setbk
    rw [findSlot_setSlot]
    · exact h
    · exact fun _ => rfl
  have hfl := enact_wrblk (e := e) (s := ⟨s.ctx,_⟩) h3
  unfold bwrsup
  refine (enact_then (Btlib.enact_brdblk h)).trans ((enact_then hinf).trans ((enact_then enact_get).trans ?_))
  refine (enact_then hset).trans ((enact_then hfl).trans ?_)
  rw [if_neg (by decide)]
  rfl

theorem Made.bulock (h : Made s true m) (hslots : 3 ≤ ZMXBLK) :
    ∃ s', enact e bulock s = .done ((), s') ∧ Left e s' m := by
  have hl := h.laid.flushes (List.range ZMXBLK)
  have hfind := hl.findSlot (i := 0) (b := ZSUPER) rfl
  generalize hk : (List.range ZMXBLK).foldl Cache.flush s.cache = k1 at hl hfind
  have hsup := enact_bwrsup (e := e) (s := ⟨s.ctx,k1⟩) hfind
  generalize hk2 : (((k1.bqmove 0).bqmove 0).setbk 0 ZROOT s.ctx.super.snfree s.ctx.super.sfreep
      (k1.slot 0).mem.nkeys s.ctx.super.sblkmx ZNULL).flush 0 = k2 at hsup
  have hmod : ¬ s.ctx.super.smod = 0 := by
    have := h.mod
    omega
  refine ⟨⟨{ s.ctx with super := { s.ctx.super with smod := 0 }, lckcnt := 0 },k2.initcntrl⟩,?_,?_⟩
  · have hsync : enact e btsync s =
        .done (0, ⟨{ s.ctx with super := { s.ctx.super with smod := 0 } },k2.initcntrl⟩) := by
      unfold btsync
      refine (enact_then enact_wrall).trans ?_
      rw [hk, if_pos rfl]
      refine (enact_then enact_get).trans ?_
      rw [if_pos hmod]
      refine (enact_then hsup).trans ?_
      rw [if_pos rfl]
      refine (enact_then (enact_setSuper _)).trans ((enact_then enact_initcntrl).trans ?_)
      rw [enact_btgerr]
      exact congrArg _ (congrArg₂ Prod.mk h.err rfl)
    have h1 : ¬ 1 < s.ctx.lckcnt := by
      have := h.lckcnt
      omega
    unfold Btlib.bulock
    refine (enact_then enact_get).trans ?_
    rw [if_neg h1, if_pos h.lckcnt]
    refine (enact_then hsync).trans ((enact_then enact_unlock).trans ?_)
    rw [if_neg (by decide)]
    rfl
  · have hbase := ((hl.bqmove 0).bqmove 0).setbk 0 ZROOT s.ctx.super.snfree s.ctx.super.sfreep (k1.slot 0).mem.nkeys
      s.ctx.super.sblkmx ZNULL
    have hblock : ∀ b, 2 ≤ b → k2.file.block b = k1.file.block b := fun b hb => by
      rw [← hk2]
      refine flush_block ?_ hb
      rw [hbase.inmem_eq (i := 0) (b := 0) rfl]
      decide
    have hsize : k1.file.size ≤ k2.file.size := by
      rw [← hk2]
      exact flush_size _ 0
    have hseen : ∀ c : Int, 0 ≤ c → k2.initcntrl.seen c = k2.file.read c := fun c hc => by
      rw [Cache.seen, (laid_initcntrl k2).findSlot_none hc List.not_mem_nil]
      rfl
    have hlast : 0 < m → k2.file.read ((m : Int) + 1) = some (s.cache.slot 2).mem := fun hpos => by
      obtain ⟨hmem,hlt,-⟩ := h.wrall hslots hpos
      rw [hk] at hmem hlt
      rw [Disk.read, if_pos ⟨by omega,by omega⟩, hblock _ (by omega), hmem]
    refine ⟨h.err,h.blkmx,h.nfree,h.freep,fun hpos => ?_,fun c hc hne b hb => ?_,fun hm => ?_⟩
    · obtain ⟨-,htype,hnext,-⟩ := h.slot hpos
      exact ⟨_,by rw [hseen _ (by omega), hlast hpos],htype,hnext⟩
    · have hblank : k1.file.block c = Block.blank := by
        rcases Nat.eq_zero_or_pos m with rfl | hpos
        · rw [← hk, flushes_block (fun i hi => ?_) hc, h.file c hc]
          rcases eq_or_ne i 2 with rfl | hi2
          · rw [h.laid.inmem 2 hslots]
            exact (by decide : (-1 : Int) < 2)
          · exact h.laid.inmem_lt (List.mem_range.1 hi) hi2
        · rw [← hk]
          exact (h.wrall hslots hpos).2.2 c hc hne
      rw [hseen c (by omega)] at hb
      simp only [Disk.read, hblock c hc, hblank] at hb
      split at hb
      · obtain rfl := Option.some.inj hb
        decide
      · cases hb
    · subst hm
      obtain ⟨-,htype,-,-⟩ := h.slot Nat.one_pos
      obtain ⟨k,hrd,hf,hc⟩ := Laid.enact_brdblk (e := e) (b := 2)
        (s := ⟨{ s.ctx with super := { s.ctx.super with smod := 0 }, lckcnt := 0 },k2.initcntrl⟩) (laid_initcntrl k2)
        (by simp only [List.length_nil]; omega) (by decide) List.not_mem_nil (hlast Nat.one_pos)
      obtain ⟨s',hs',he⟩ := enact_bgtfre (e := e) (b := 2)
        (s := ⟨{ s.ctx with super := { s.ctx.super with smod := 0 }, lckcnt := 0 },k2.initcntrl⟩) h.freep (by decide)
        hrd hf hc htype
      exact ⟨s',hs',by rw [he]; exact h.err⟩

end Leave

section Sound

-- The list of free blocks as a handle sees it from the block `p` on.
def FreeWay (seen : Int → Option Block) (blkmx : Int) : Int → List Int → Prop
  | p, [] => p = ZNULL
  | p, b :: fs => p = b ∧ 0 ≤ b ∧ b < blkmx ∧ ∃ c, seen b = some c ∧ c.btype = ZFREE ∧ FreeWay seen blkmx c.nxblk fs

-- `n` calls of `bgtfre`
def takes : Nat → BT (List Int)
  | 0 => return []
  | n + 1 => do
      let blk ← bgtfre
      let blks ← takes n
      return blk :: blks

-- The free list is sound: it can be gone through, and all of it can be allocated.
def FreeSound (e : Nat → Bool × Disk) (s : Seat) : Prop :=
  ∃ fs, FreeWay s.cache.seen s.ctx.super.sblkmx s.ctx.super.sfreep fs ∧ s.ctx.super.snfree = fs.length ∧
    ∃ s', enact e (takes fs.length) s = .done (fs, s') ∧ fs.Nodup ∧ s'.ctx.err.qerror = 0

theorem Left.freeSound_iff (h : Left e s m) : FreeSound e s ↔ m ≤ 1 := by
  constructor
  · rintro ⟨fs,hway,hcount,-⟩
    by_contra hm
    rw [h.freep, if_neg (by omega)] at hway
    match fs, hway with
    | [], hnull =>
        have hnull : (m : Int) + 1 = -1 := hnull
        omega
    | b :: fs, hway =>
        obtain ⟨rfl,-,-,c,hc,-,hway⟩ := hway
        obtain ⟨c',hc',-,hnext⟩ := h.last (by omega)
        obtain rfl : c' = c := Option.some.inj (hc'.symm.trans hc)
        rw [hnext, if_neg (by omega)] at hway
        match fs, hway with
        | [], hnull =>
            have hnull : (m : Int) = -1 := hnull
            omega
        | d :: fs, hway =>
            -- the block before the last one is lost
            obtain ⟨rfl,-,-,c2,hc2,htype,-⟩ := hway
            exact h.lost m (by omega) (by omega) c2 hc2 htype
  · intro hm
    rcases Nat.eq_zero_or_pos m with rfl | hpos
    · exact ⟨[],h.freep,h.nfree,s,rfl,List.nodup_nil,h.err⟩
    · obtain rfl : m = 1 := by omega
      obtain ⟨c,hc,htype,hnext⟩ := h.last hpos
      obtain ⟨s',hs',he⟩ := h.take rfl
      refine ⟨[2],⟨h.freep,by decide,?_,c,hc,htype,hnext⟩,h.nfree,s',?_,List.nodup_singleton 2,he⟩
      · rw [h.blkmx]
        decide
      · exact enact_then hs'

theorem btcrt_left (hslots : 3 ≤ ZMXBLK) (hlock : e s.cache.turn = (true, Disk.empty)) (nkeys : Int) (shared : Bool) :
    ∃ s', enact e (btcrt nkeys shared) s = .done (0, s') ∧ Left e s' (nkeys.tdiv ZMXKEY - 2).toNat := by
  obtain ⟨s1,hrun1,h1,hp1⟩ := (begun_begun s shared).super (e := e) hslots nkeys
  obtain ⟨s2,hrun2,h2⟩ := h1.default (e := e) hslots (by rw [hp1]) (by rw [hp1]) (by rw [hp1])
    (by rw [hp1]; exact Int.one_pos) nkeys
  obtain ⟨s3,hloop,h3⟩ := h2.loop (e := e) hslots (nkeys.tdiv ZMXKEY - 2).toNat
  rw [Nat.zero_add] at h3
  have hpre : enact e (if nkeys ≠ 0 then freeListLoop (nkeys.tdiv ZMXKEY - 2).toNat 2 else pure ()) s2 =
      .done ((), s3) := by
    by_cases hn : nkeys = 0
    · subst hn
      rw [Int.zero_tdiv] at hloop
      exact hloop
    · rw [if_pos hn]
      exact hloop
  have hall : enact e (btcrt nkeys shared) s = enact e (do leave; btgerr) s3 :=
    (enact_btcrt hlock nkeys shared).trans (hrun1.trans (hrun2.trans (enact_then hpre)))
  cases shared with
  | false =>
      refine ⟨s3,?_,h3.left⟩
      have hleave : enact e leave s3 = .done ((), s3) := by
        refine (enact_then enact_get).trans ?_
        rw [h3.shared]
        rfl
      rw [hall, enact_then hleave, enact_btgerr, h3.err]
  | true =>
      obtain ⟨s4,hun,h4⟩ := h3.bulock (e := e) hslots
      refine ⟨s4,?_,h4⟩
      have hleave : enact e leave s3 = .done ((), s4) := by
        refine (enact_then enact_get).trans ?_
        rw [h3.shared]
        exact hun
      rw [hall, enact_then hleave, enact_btgerr, h4.err]

-- The free list of a created file is sound when it is to have one block at most.
theorem btcrt_freeSound_iff (hslots : 3 ≤ ZMXBLK) (hkeys : 0 < ZMXKEY) (hlock : e s.cache.turn = (true, Disk.empty))
    {nkeys : Int} (h0 : 0 ≤ nkeys) (shared : Bool) :
    ∃ s', enact e (btcrt nkeys shared) s = .done (0, s') ∧ (FreeSound e s' ↔ nkeys < 4 * ZMXKEY) := by
  obtain ⟨s',hrun,hleft⟩ := btcrt_left hslots hlock nkeys shared
  have hm : (nkeys.tdiv ZMXKEY - 2).toNat ≤ 1 ↔ nkeys < 4 * ZMXKEY := by
    rw [← Int.ediv_lt_iff_lt_mul (by omega : (0 : Int) < ZMXKEY), Int.tdiv_eq_ediv_of_nonneg h0]
    omega
  exact ⟨s',hrun,hleft.freeSound_iff.trans hm⟩

end Sound

end Create

section Run

attribute [local instance] smallBuild

-- A handle not in use, whose cache holds nothing.
def Seat.idle : Seat where
  ctx := { St.fresh.ctx with isopen := false }
  cache := ⟨fun _ => ⟨ZNULL,false,0,Block.blank⟩,[],0,0,Disk.empty,0⟩

-- A file with room for one free block is sound.
theorem btcrt_freeSound_iff_one : ∃ s', enact (fun _ => (true, Disk.empty)) (btcrt 66 true) Seat.idle = .done (0, s') ∧
    FreeSound (fun _ => (true, Disk.empty)) s' := by
  obtain ⟨s',hrun,hiff⟩ := btcrt_freeSound_iff (s := Seat.idle) (e := fun _ => (true, Disk.empty)) (by decide)
    (by decide) rfl (show (0 : Int) ≤ 66 by decide) true
  exact ⟨s',hrun,hiff.2 (by decide)⟩

-- With room for two the first of them is nowhere.
theorem btcrt_unsound_two : ∃ s', enact (fun _ => (true, Disk.empty)) (btcrt 88 false) Seat.idle = .done (0, s') ∧
    ¬ FreeSound (fun _ => (true, Disk.empty)) s' := by
  obtain ⟨s',hrun,hleft⟩ := btcrt_left (s := Seat.idle) (e := fun _ => (true, Disk.empty)) (by decide) rfl 88 false
  exact ⟨s',hrun,fun hsound => absurd (hleft.freeSound_iff.1 hsound) (by decide)⟩

end Run

end Btlib
