import Btlib.Cache.Through
import Btlib.Mend.Calls
import Btlib.Walk.Latch

namespace Btlib

section Plain

variable [Build] {s : St}

-- The superroot as `bwrsup` leaves it.
def St.superBlock (s : St) : Block :=
  (s.disk.block ZSUPER).setBk ZROOT s.ctx.super.snfree s.ctx.super.sfreep (s.disk.block ZSUPER).nkeys s.ctx.super.sblkmx
    ZNULL

-- What a synchronised handle leaves in the file.
def St.synced (s : St) : St where
  ctx := { s.ctx with super.smod := 0 }
  disk := if s.ctx.super.smod = 0 then s.disk else s.disk.put ZSUPER s.superBlock

theorem St.synced_block {b : Int} (hb : b ≠ ZSUPER) : s.synced.disk.block b = s.disk.block b := by
  unfold St.synced
  dsimp only
  split
  · rfl
  · exact Function.update_of_ne hb ..

theorem St.synced_size : s.synced.disk.size = s.disk.size := by
  unfold St.synced
  dsimp only
  split <;> rfl

-- A superroot that has been written again.
structure Renewed (b b' : Block) : Prop where
  keys : SameKeys b b'
  ver : b.getInf .ZBTVER = ZVERS → b'.getInf .ZBTVER = ZVERS

theorem St.synced_renewed : Renewed (s.disk.block ZSUPER) (s.synced.disk.block ZSUPER) := by
  by_cases hm : s.ctx.super.smod = 0
  · rw [show s.synced.disk = s.disk from if_pos hm]
    exact ⟨.refl _,id⟩
  · rw [show s.synced.disk = s.disk.put ZSUPER s.superBlock from if_neg hm, Disk.block_put, Function.update_self]
    refine ⟨sameKeys_setBk _ _ _ _ _,fun _ => ?_⟩
    have hver : s.superBlock.btver = ZVERS := rfl
    have hhdr : s.superBlock.bthdr = if Build.LFS then LFSHDR else (s.disk.block ZSUPER).bthdr := rfl
    rw [Block.getInf, hver, hhdr]
    split <;> simp_all

theorem exec_synced (hz : s.disk.Has ZSUPER) : exec btsync s = .done (s.ctx.err.qerror, s.synced) := by
  obtain ⟨s',hrun,hctx,hdisk⟩ := exec_btsync hz
  rw [hrun]
  obtain ⟨c',d'⟩ := s'
  obtain rfl := hctx
  obtain rfl := hdisk
  rfl

-- An exclusive handle as it was opened gives its lock back, and is not open any more.
theorem exec_btcls (ho : s.ctx.isopen = true) (hl : s.ctx.lckcnt = 1) (hz : s.disk.Has ZSUPER) (hfuel : 2 ≤ FUEL) :
    exec btcls s = .done (0, ⟨{ s.clear.synced.ctx with lckcnt := 0, isopen := false }, s.clear.synced.disk⟩) := by
  obtain ⟨n,hn⟩ : ∃ n, FUEL = n + 2 := ⟨FUEL - 2,by omega⟩
  have hunlock : ∀ s : St, exec (ask .unlock) s = .done (true, s) := fun _ => rfl
  have hclose : ∀ s : St, exec (ask .fclose) s = .done (true, s) := fun _ => rfl
  have hsync := exec_synced (s := s.clear) hz
  have hl' : s.clear.ctx.lckcnt = 1 := hl
  have hmod : ∀ s : St, exec bacfre s = .done ((), { s with ctx.isopen := false }) := fun _ => rfl
  have hzero : ∀ s : St, exec (modify fun c => { c with lckcnt := 0 } : BT Unit) s =
      .done ((), { s with ctx.lckcnt := 0 }) := fun _ => rfl
  have herr : s.clear.synced.ctx.err.qerror = 0 := rfl
  have hunl : exec bulock s.clear = .done ((), { s.clear.synced with ctx.lckcnt := 0 }) := by
    simp [bulock, hl', hsync, hunlock, hzero]
  rw [btcls, exec_api ho, hn]
  simp only [bulockLoop, exec_bind, exec_get, Prog.Outcome.bind_done, hl']
  simp [hunl, hclose, hmod, herr]

-- The superroot has the words of the handle.
def Tells (b : Block) (p : Super) : Prop := b.nxblk = p.sfreep ∧ b.nblks = p.sblkmx ∧ b.misc = p.snfree

-- It has, unless the handle counts that it has not.
structure InStep (p : Super) (b : Block) : Prop where
  counts : 0 ≤ p.smod
  tells : p.smod = 0 → Tells b p

omit [Build] in
theorem InStep.told {p q : Super} {b : Block} (h : InStep p b) (ht : Told p q) : InStep q b := by
  have h0 := h.counts
  rcases ht with ⟨h1,h2,h3,h4⟩ | hlt
  · refine ⟨h4 ▸ h0,fun hz => ?_⟩
    have := h.tells (h4 ▸ hz)
    rwa [Tells, h1, h2, h3]
  · exact ⟨h0.trans hlt.le,fun hz => by omega⟩

theorem InStep.synced (h : InStep s.ctx.super (s.disk.block ZSUPER)) :
    Tells (s.synced.disk.block ZSUPER) s.synced.ctx.super := by
  by_cases hm : s.ctx.super.smod = 0
  · rw [show s.synced.disk = s.disk from if_pos hm]
    exact h.tells hm
  · rw [show s.synced.disk = s.disk.put ZSUPER s.superBlock from if_neg hm]
    simp [Tells, St.superBlock, Block.setBk, St.synced]

end Plain

section Elsewhere

variable [Build] {s s' : St} {c : Ctx} {k : Cache} {fs os : List Int} {μ : Map} {keys n : Nat} {t : KeyTree n}

-- What the tree of a root and its free blocks say of a handle.
structure AsIs (s s' : St) (os : List Int) : Prop where
  root : s'.ctx.super.scroot = s.ctx.super.scroot
  sfreep : s'.ctx.super.sfreep = s.ctx.super.sfreep
  sblkmx : s'.ctx.super.sblkmx = s.ctx.super.sblkmx
  size : s'.disk.size = s.disk.size
  block : ∀ b ∉ os, s.disk.Has b → s'.disk.block b = s.disk.block b

theorem Plain.moved {fs' os' : List Int} (h : Plain s t fs os μ) (hroot : s'.ctx.super.scroot = s.ctx.super.scroot)
    (hblock : ∀ b ∈ t.ids, s'.disk.block b = s.disk.block b) (hstore : Store s' fs' (t.ids ++ os')) :
    Plain s' t fs' os' μ := by
  have hlink : t.link ∈ t.ids := by
    obtain ⟨n,rfl⟩ : ∃ k, n = k + 1 := ⟨n - 1,by have := h.pos; omega⟩
    exact Index.link_mem
  refine ⟨⟨hroot ▸ h.index.link,h.index.holds.congr hblock,fun b hb => ?_,hstore⟩,h.wf,h.pos,h.sorted,h.short,h.single,
    ?_,h.entries⟩
  · rw [hblock b hb, hroot]
    exact h.index.kind b hb
  · rw [hroot, ← h.index.link, hblock _ hlink, h.index.link]
    exact h.nodups

omit [Build] in
theorem Store.asIs {used : List Int} (h : Store s fs (used ++ os)) (ha : AsIs s s' os) : Store s' fs (used ++ os) :=
  h.transfer ha.size (fun b hb => ha.block b (fun ho => h.not_mem_free (List.mem_append_right _ ho) hb)
    (h.has b (List.mem_append_left _ hb))) ha.sfreep ha.sblkmx

omit [Build] in
theorem Index.asIs (h : Index s t fs os) (ha : AsIs s s' os) : ∀ b ∈ t.ids, s'.disk.block b = s.disk.block b := fun b hb =>
  ha.block b (h.not_mem_os hb) (h.has hb)

theorem Plain.asIs (h : Plain s t fs os μ) (ha : AsIs s s' os) : Plain s' t fs os μ :=
  h.moved ha.root (h.index.asIs ha) (h.index.store.asIs ha)

theorem Root.asIs (h : Root s os μ keys) (ha : AsIs s s' os) (hw : Writable s') : Root s' os μ keys := by
  obtain ⟨-,n,t,fs,hp,hlen⟩ := h
  exact ⟨hw,n,t,fs,hp.asIs ha,hlen⟩

theorem Root.has (h : Root s os μ keys) {b : Int} (hb : b ∈ os) : s.disk.Has b := by
  obtain ⟨-,n,t,fs,hp,-⟩ := h
  exact hp.index.store.has_used (List.mem_append_right _ hb)

theorem Root.nodup_os (h : Root s os μ keys) : os.Nodup := by
  obtain ⟨-,n,t,fs,hp,-⟩ := h
  exact (List.nodup_append.1 hp.index.store.nodup_used).2.1

theorem Root.shown {d : Disk} (h : Root ⟨c,⟨k.view,k.file.size⟩⟩ os μ keys) (hd : k.Shows d) : Root ⟨c,d⟩ os μ keys :=
  h.asIs ⟨rfl,rfl,rfl,hd.size,fun b _ hb => hd.block b hb.1 hb.2⟩ ⟨h.1.isopen,h.1.shared,h.1.mode⟩

theorem Root.synced (h : Root s os μ keys) (hz : ZSUPER ∈ os) {c : Ctx} (hsuper : c.super = s.synced.ctx.super)
    (ho : c.isopen = true) (hs : c.shared = false) : Root ⟨c,s.synced.disk⟩ os μ keys := by
  refine h.asIs ⟨?_,?_,?_,St.synced_size,fun b hb _ => St.synced_block fun hbz => hb (by rwa [hbz])⟩ ⟨ho,hs,?_⟩
  · exact congrArg (fun p => p.scroot) hsuper
  · exact congrArg (fun p => p.sfreep) hsuper
  · exact congrArg (fun p => p.sblkmx) hsuper
  · exact (congrArg Super.smode hsuper).trans h.1.mode

end Elsewhere

section Session

variable [Build] {α : Type} {x : BT α} {c : Ctx} {k : Cache} {os : List Int} {μ : Map} {keys : Nat}

omit [Build] in
theorem ends_exec {E : Op → Disk → Prop} {Q : α × St → Prop} {d : Disk} :
    (exec x ⟨c,d⟩).Ends E Q ↔ ((x c).run plain d).Ends E fun r => Q (r.1.1,⟨r.1.2,r.2⟩) := by
  unfold exec
  cases (x c).run plain d <;> rfl

omit [Build] in
theorem BT.run_bind {σ β : Type} (h : Prog.Machine Op Res σ) (x : BT α) (f : α → BT β) (c : Ctx) (s : σ) :
    ((x >>= f) c).run h s = ((x c).run h s).bind fun r => (f r.1.1 r.1.2).run h r.2 :=
  Prog.run_bind h (x c) _ s

theorem keepsFacts_keyCalls (hcap : 3 ≤ ZMXKEY) (cs : List KeyCall) : KeepsFacts (KeyCall.answers cs) := by
  induction cs with
  | nil => exact .pure _
  | cons call cs ih =>
      refine .bind ?_ fun _ => .bind ih fun _ => .pure _
      cases call with
      | keep call => cases call <;> simp [KeyCall.answer, Call.answer, hcap, keepsFacts_bupdky]
      | delete key => simp [KeyCall.answer, hcap]

theorem slotSafe_keyCalls (cs : List KeyCall) : SlotSafe (KeyCall.answers cs) := by
  induction cs with
  | nil => exact (MarksKept.pure _).slotSafe
  | cons call cs ih =>
      refine .bind ?_ fun _ => .bind ih fun _ => (MarksKept.pure _).slotSafe
      cases call with
      | keep call =>
          cases call with
          | insert key val => exact .bind (marksKept_binsky Nat.one_lt_two key val).slotSafe fun _ => (MarksKept.pure _).slotSafe
          | find key => exact .bind (marksKept_bfndky Nat.one_lt_two key).slotSafe fun _ => (MarksKept.pure _).slotSafe
          | update key val => exact .bind (slotSafe_bupdky _ _) fun _ => (MarksKept.pure _).slotSafe
      | delete key => exact .bind (slotSafe_bdelky _) fun _ => (MarksKept.pure _).slotSafe

-- What the calls on the keys of a root leave, seen through the cache.
structure Viewed (c : Ctx) (k : Cache) (os : List Int) (μ : Map) (keys : Nat) (s : St) : Prop where
  root : Root s os μ keys
  scroot : s.ctx.super.scroot = c.super.scroot
  lckcnt : s.ctx.lckcnt = c.lckcnt
  other : ∀ b ∈ os, s.disk.block b = k.view b

variable {m : Prog.Machine Op Res Cache} (hm : Cache.Mirrored m) (hcap : 8 ≤ ZMXKEY) (hslots : 3 ≤ ZMXBLK) (h : BetweenCalls c k)
include hm hcap hslots h

theorem ends_keyCalls_shown (hroot : ∀ d, k.Shows d → Root ⟨c,d⟩ os μ keys) (cs : List KeyCall)
    (hkeys : ∀ call ∈ cs, call.key.length ≤ 31) (hfuel : 2 * (keys + cs.length) + 3 ≤ FUEL)
    (hmet : ∀ d, k.Shows d → KeyCall.Met os cs ⟨c,d⟩ μ) :
    ((KeyCall.answers cs c).run m k).Ends
      (fun o k' => k'.Parts o ∧ ∀ d, k'.Shows d → plain o d = none → Refused c.super.scroot o d) fun r =>
        (BetweenCalls r.1.2 r.2 ∧ Told c.super r.1.2.super) ∧
          ∀ d, r.2.Shows d → r.1.1 = (KeyCall.ofMaps μ cs).1 ∧
            Viewed c k os (KeyCall.ofMaps μ cs).2 (keys + cs.length) ⟨r.1.2,d⟩ := by
  have hret := h.retraces hm (x := KeyCall.answers cs) (Q := fun _ _ _ => True) (some c.super) hslots
    (fun p hp => by cases hp; exact .of_eq rfl) (slotSafe_keyCalls cs)
    fun t ht _ => (keepsFacts_keyCalls (by omega) cs c t ht).mono fun _ _ _ hl => ⟨hl,trivial⟩
  have hends := hret.ends (F := Refused c.super.scroot)
    (P := fun r => r.1.1 = (KeyCall.ofMaps μ cs).1 ∧
      Viewed c k os (KeyCall.ofMaps μ cs).2 (keys + cs.length) ⟨r.1.2,r.2⟩) fun d hd => ?_
  · refine hends.mono (fun _ _ h => h) ?_
    rintro ⟨⟨as,c'⟩,k'⟩ ⟨⟨hr,t,-,⟨hl,ht⟩,-⟩,hp⟩
    exact ⟨⟨hr,hl.told _ ht⟩,hp⟩
  · have hrun : (exec (KeyCall.answers cs) ⟨c,d⟩).Ends (Refused c.super.scroot) fun r =>
        r.1 = (KeyCall.ofMaps μ cs).1 ∧ Viewed c k os (KeyCall.ofMaps μ cs).2 (keys + cs.length) r.2 := by
      refine (ends_keyCalls hcap (hroot d hd) cs hkeys hfuel (hmet d hd)).mono (fun _ _ h => h) ?_
      rintro ⟨as,s⟩ ⟨hans,hl⟩
      refine ⟨hans,hl.root,hl.keeps.root,hl.keeps.lckcnt,fun b hb => ?_⟩
      have hin := (hroot d hd).has hb
      exact (hl.keeps.other b hb).trans (hd.block b hin.1 (hd.size ▸ hin.2))
    exact ends_exec.1 hrun

omit hcap in
theorem ends_btcls_shown (hfuel : 2 ≤ FUEL) (ho : c.isopen = true) (hl : c.lckcnt = 1) (hz : ZSUPER ∈ os)
    (hroot : ∀ d, k.Shows d → Root ⟨c,d⟩ os μ keys) (hstep : ∀ d, k.Shows d → InStep c.super (d.block ZSUPER)) :
    ((btcls c).run m k).Ends
      (fun o k' => k'.Parts o ∧ ∀ d, k'.Shows d → plain o d ≠ none) fun r =>
        (BetweenCalls r.1.2 r.2 ∧ r.1.2.super.scroot = c.super.scroot) ∧ r.1.1 = 0 ∧ Root ⟨{ r.1.2 with isopen := true },r.2.file⟩ os μ keys ∧
          (Tells (r.2.file.block ZSUPER) r.1.2.super ∧ Renewed (k.view ZSUPER) (r.2.file.block ZSUPER)) ∧
            ∀ b ∈ os, b ≠ ZSUPER → r.2.file.block b = k.view b := by
  have hret := h.retraces hm (x := btcls) (Q := fun _ _ t => t.dirty = some ∅) none hslots
    (fun _ hp => by cases hp) slotSafe_btcls fun t ht hn => minds_btcls ht hn ho hl
  have hends := hret.ends (F := fun _ _ => False) (P := fun r => ∃ d, k.Shows d ∧
      r.1 = (0, { (St.clear ⟨c,d⟩).synced.ctx with lckcnt := 0, isopen := false }) ∧
        r.2 = (St.clear ⟨c,d⟩).synced.disk) fun d hd => ?_
  · refine hends.mono (fun o k' he => ⟨he.1,fun d hd hn => he.2 d hd hn⟩) ?_
    rintro ⟨⟨code,c'⟩,k'⟩ ⟨⟨hbetween,t,hb,⟨hlone,-⟩,hd⟩,hp⟩
    obtain ⟨d,hs,hr,hfile⟩ := hp _ (hb.shows_file hlone.counted hd)
    obtain ⟨rfl,rfl⟩ := Prod.mk.inj hr
    dsimp only at hfile ⊢
    have hr0 : Root (St.clear ⟨c,d⟩) os μ keys :=
      (hroot d hs).asIs ⟨rfl,rfl,rfl,rfl,fun _ _ _ => rfl⟩ ⟨(hroot d hs).1.isopen,(hroot d hs).1.shared,(hroot d hs).1.mode⟩
    refine ⟨⟨hbetween,rfl⟩,rfl,?_,⟨?_,?_⟩,fun b hb hbz => ?_⟩
    · rw [hfile]
      exact hr0.synced hz rfl rfl hr0.1.shared
    · rw [hfile]
      exact InStep.synced (s := St.clear ⟨c,d⟩) (hstep d hs)
    · have hin := (hroot d hs).has hz
      rw [hfile, ← hs.block ZSUPER hin.1 (hs.size ▸ hin.2)]
      exact St.synced_renewed (s := St.clear ⟨c,d⟩)
    · have hin := (hroot d hs).has hb
      rw [hfile, St.synced_block hbz]
      exact hs.block b hin.1 (hs.size ▸ hin.2)
  · refine (ends_exec (Q := fun r => ∃ d, k.Shows d ∧
      (r.1, r.2.ctx) = (0, { (St.clear ⟨c,d⟩).synced.ctx with lckcnt := 0, isopen := false }) ∧
        r.2.disk = (St.clear ⟨c,d⟩).synced.disk)).1 ?_
    rw [exec_btcls ho hl ((hroot d hd).has hz) hfuel]
    exact ⟨d,hd,rfl,rfl⟩

-- Calls on the keys of a root, and the close.
def KeyCall.session (cs : List KeyCall) : BT (List (Int × Option Int) × Int) := do
  let as ← KeyCall.answers cs
  let code ← btcls
  return (as, code)

theorem ends_session (hl : c.lckcnt = 1) (hz : ZSUPER ∈ os)
    (hstep : InStep c.super (k.view ZSUPER)) (hroot : Root ⟨c,⟨k.view,k.file.size⟩⟩ os μ keys) (cs : List KeyCall)
    (hkeys : ∀ call ∈ cs, call.key.length ≤ 31) (hfuel : 2 * (keys + cs.length) + 3 ≤ FUEL)
    (hmet : ∀ d, k.Shows d → KeyCall.Met os cs ⟨c,d⟩ μ) :
    ((KeyCall.session cs c).run m k).Ends
      (fun o k' => k'.Parts o ∧ ∀ d, k'.Shows d → plain o d = none → Refused c.super.scroot o d) fun r =>
        (BetweenCalls r.1.2 r.2 ∧ r.1.2.super.scroot = c.super.scroot) ∧ r.1.1 = ((KeyCall.ofMaps μ cs).1, 0) ∧
          Root ⟨{ r.1.2 with isopen := true },r.2.file⟩ os (KeyCall.ofMaps μ cs).2 (keys + cs.length) ∧
            (Tells (r.2.file.block ZSUPER) r.1.2.super ∧ Renewed (k.view ZSUPER) (r.2.file.block ZSUPER)) ∧
              ∀ b ∈ os, b ≠ ZSUPER → r.2.file.block b = k.view b := by
  have hcalls := ends_keyCalls_shown hm hcap hslots h (fun d => hroot.shown) cs hkeys hfuel hmet
  rw [KeyCall.session, BT.run_bind]
  refine hcalls.bind ?_
  rintro ⟨⟨as,c'⟩,k'⟩ ⟨⟨hbetween,htold⟩,hkept⟩
  obtain ⟨d0,hd0⟩ : ∃ d, k'.Shows d := ⟨_,k'.shows_view⟩
  obtain ⟨rfl,hk0⟩ := hkept d0 hd0
  have hroots : ∀ d, k'.Shows d → Root ⟨c',d⟩ os (KeyCall.ofMaps μ cs).2 (keys + cs.length) :=
    fun d hd => (hkept d hd).2.root
  have hclose := ends_btcls_shown hm hslots hbetween (by omega) hk0.root.1.isopen (hk0.lckcnt.trans hl) hz hroots
    fun d hd => ?_
  · rw [BT.run_bind, Prog.Outcome.ends_bind]
    refine hclose.mono (fun o k' he => ⟨he.1,fun d hd hn => absurd hn (he.2 d hd)⟩) ?_
    rintro ⟨⟨code,c''⟩,k''⟩ ⟨⟨hbetween',hroot'⟩,rfl,hr,ht,hother⟩
    have hsame : ∀ b ∈ os, k'.view b = k.view b := fun b hb => by
      have hin := hk0.root.has hb
      exact (hd0.block b hin.1 (hd0.size ▸ hin.2)).symm.trans (hk0.other b hb)
    refine ⟨⟨hbetween',hroot'.trans hk0.scroot⟩,rfl,hr,?_,fun b hb hbz => (hother b hb hbz).trans (hsame b hb)⟩
    rwa [← hsame ZSUPER hz]
  · have hother := (hkept d hd).2.other ZSUPER hz
    exact hother.symm ▸ hstep.told htold

omit hm in
-- A run of calls on the keys of a root through the cache, and then the handle is closed: the calls answer like the
-- map, and the file alone has the map they leave, in the same tree, with a superroot that tells of its free blocks.
theorem map_kept_on_close (env : Nat → Bool × Disk) (hl : c.lckcnt = 1) (hz : ZSUPER ∈ os)
    (hstep : InStep c.super (k.view ZSUPER)) (hroot : Root ⟨c,⟨k.view,k.file.size⟩⟩ os μ keys) (cs : List KeyCall)
    (hkeys : ∀ call ∈ cs, call.key.length ≤ 31) (hfuel : 2 * (keys + cs.length) + 3 ≤ FUEL)
    (hmet : ∀ d, k.Shows d → KeyCall.Met os cs ⟨c,d⟩ μ) :
    ((KeyCall.session cs c).run (Cache.shown env) k).Ends
      (fun o k' => k'.Parts o ∧ ∀ d, k'.Shows d → plain o d = none → Refused c.super.scroot o d) fun r =>
        r.1.1 = ((KeyCall.ofMaps μ cs).1, 0) ∧
          Root ⟨{ r.1.2 with isopen := true },r.2.file⟩ os (KeyCall.ofMaps μ cs).2 (keys + cs.length) ∧
            (Tells (r.2.file.block ZSUPER) r.1.2.super ∧ Renewed (k.view ZSUPER) (r.2.file.block ZSUPER)) ∧
              ∀ b ∈ os, b ≠ ZSUPER → r.2.file.block b = k.view b :=
  (ends_session (Cache.mirrors_shown env) hcap hslots h hl hz hstep hroot cs hkeys hfuel hmet).mono (fun _ _ h => h)
    fun _ hr => hr.2

end Session

section Run

local instance closeBuild : Build := build32 100

attribute [local irreducible] exec KeyCall.session

-- The handle on a new file, with the lock held, before the superroot is told of it.
def St.held : St := { St.fresh with ctx.lckcnt := 1, ctx.super.smod := 1 }

theorem root_held : Root St.held [ZSUPER] (fun _ => none) 0 :=
  root_fresh.asIs ⟨rfl,rfl,rfl,rfl,fun _ _ _ => rfl⟩ ⟨rfl,rfl,rfl⟩

theorem view_clear (d : Disk) (b : Int) (hb : 0 ≤ b) : (Cache.clear d).view b = d.block b :=
  Cache.view_of_absent fun _ _ hm => absurd (hm ▸ (by decide : ZNULL < 0)) (not_lt.2 hb)

theorem root_clear : Root ⟨St.held.ctx,⟨(Cache.clear St.held.disk).view,2⟩⟩ [ZSUPER] (fun _ => none) 0 :=
  root_held.asIs ⟨rfl,rfl,rfl,rfl,fun b _ hb => view_clear _ b hb.1⟩ ⟨rfl,rfl,rfl⟩

theorem map_kept_on_close_fresh : ∃ r,
    (KeyCall.session risenAndFallen St.held.ctx).run (Cache.shown fun _ => (true, St.held.disk))
      (Cache.clear St.held.disk) = .done r ∧
        r.1.1 = (List.replicate 35 (0, none) ++ [(QNOKEY, none),(0, some 12)], 0) ∧
          Root ⟨{ r.1.2 with isopen := true },r.2.file⟩ [ZSUPER] (KeyCall.ofMaps (fun _ => none) risenAndFallen).2 37 ∧
            (Tells (r.2.file.block ZSUPER) r.1.2.super ∧
              Renewed ((Cache.clear St.held.disk).view ZSUPER) (r.2.file.block ZSUPER)) ∧
              ∀ b ∈ [ZSUPER], b ≠ ZSUPER → r.2.file.block b = (Cache.clear St.held.disk).view b := by
  have hmet : ∀ d, (Cache.clear St.held.disk).Shows d →
      KeyCall.Met [ZSUPER] risenAndFallen ⟨St.held.ctx,d⟩ fun _ => none := fun _ _ =>
    KeyCall.met_of_few _ few_none (by decide)
  have hbetween : BetweenCalls St.held.ctx (Cache.clear St.held.disk) := .initcntrl rfl rfl (by decide) (by decide)
  have hstep : InStep St.held.ctx.super ((Cache.clear St.held.disk).view ZSUPER) :=
    ⟨by decide,fun hm => absurd hm (by decide)⟩
  have h := map_kept_on_close (by decide) (by decide) hbetween (fun _ => (true, St.held.disk)) rfl List.mem_cons_self hstep
    root_clear risenAndFallen (by decide) (by decide) hmet
  have hdone : ((KeyCall.session risenAndFallen St.held.ctx).run (Cache.shown fun _ => (true, St.held.disk))
      (Cache.clear St.held.disk)).result.isSome = true := by decide +kernel
  obtain ⟨r,hr⟩ := Option.isSome_iff_exists.1 hdone
  have hrun := Prog.Outcome.result_eq_some.1 hr
  rw [hrun] at h
  refine ⟨r,hrun,h.1.trans (congrArg (·, 0) ?_),h.2⟩
  decide +kernel

end Run

end Btlib
