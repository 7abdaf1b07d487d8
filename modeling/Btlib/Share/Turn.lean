import Btlib.Cache.Sessions
import Btlib.Share.Calls

namespace Btlib

open Prog

section Filed

variable [Build] {s : St} {os rest : List Int} {μ : Map} {keys : Nat} {D : Int} {f : Disk}

-- A file with a root at `D`: its superroot says where the free blocks and the end of the file are, and the tree of the
-- root has the entries of the map.
structure Filed (f : Disk) (D : Int) (rest : List Int) (μ : Map) (keys : Nat) : Prop where
  ver : (f.block ZSUPER).getInf .ZBTVER = ZVERS
  kind : (f.block ZSUPER).btype = ZROOT
  super : ZSUPER ∈ rest
  root : ∀ c : Ctx, c.isopen = true → c.shared = false → c.super.smode = 0 → c.super.scroot = D →
    Root ⟨c.reads (f.block ZSUPER),f⟩ rest μ keys

theorem Root.filed (h : Root s rest μ keys) (hz : ZSUPER ∈ rest) (hstep : InStep s.ctx.super (s.disk.block ZSUPER))
    (hver : (s.disk.block ZSUPER).getInf .ZBTVER = ZVERS) (hkind : (s.disk.block ZSUPER).btype = ZROOT) :
    Filed s.synced.disk s.ctx.super.scroot rest μ keys := by
  have hnew := St.synced_renewed (s := s)
  refine ⟨hnew.ver hver,hnew.keys.btype hkind,hz,fun c ho hs hm hD => ?_⟩
  obtain ⟨hfree,hmax,-⟩ := hstep.synced
  have hroot := h.synced hz (c := { c with super := s.synced.ctx.super }) rfl ho hs
  exact hroot.asIs ⟨hD,hfree,hmax,rfl,fun _ _ _ => rfl⟩ ⟨ho,hs,hm⟩

end Filed

section Refresh

variable [Build] {c : Ctx} {k : Cache} {D : Int} {m : Prog.Machine Op Res Cache}

-- The current root is read and marked.
def markRoot (root : Int) : BT Unit := do
  match ← brdblk root with
  | none => pure ()
  | some _ => bsetbs root true

-- What `block` does with the lock of a shared handle.
def refresh (root : Int) : BT Unit := do
  let _ ← brdsup
  markRoot root

theorem guarded_markRoot (D : Int) (hslots : 0 < ZMXBLK) : Guarded True (markRoot D) c ∅ fun _ _ B => B ⊆ {D} := by
  have hspare : (∅ : Finset Int).card < ZMXBLK := hslots
  refine (guarded_brdblk D fun _ => Or.inr hspare).bind fun r c1 B1 h1 => ?_
  obtain ⟨-,rfl,-⟩ := h1
  cases r with
  | none => exact guarded_pure.2 (Finset.empty_subset _)
  | some b =>
      refine (guarded_bsetbs_true D fun _ => Or.inr hspare).mono fun _ c2 B2 h2 => ?_
      rcases h2.2 with rfl | rfl
      · exact Finset.Subset.refl _
      · exact Finset.empty_subset _

omit [Build] in
theorem keepsFacts_markRoot (D : Int) : KeepsFacts (markRoot D) := by
  refine .bind (keepsFacts_brdblk D) fun r => ?_
  cases r with
  | none => exact .pure _
  | some b => exact keepsFacts_bsetbs D true

omit [Build] in
theorem exec_markRoot {s : St} (hD : s.disk.Has D) : exec (markRoot D) s = .done ((), s) := by
  simp only [markRoot, exec_bind, exec_brdblk, Disk.read_eq hD, Prog.Outcome.bind_done, exec_bsetbs hD]

theorem ends_markRoot (hm : Cache.Mirrored m) (hslots : 0 < ZMXBLK) (h : BetweenCalls c k) (hk : k.Keeps ∅ none)
    (hD : k.file.Has D) :
    ((markRoot D c).run m k).Ends (fun o k' => k'.Parts o ∧ ∀ d, k'.Shows d → plain o d ≠ none) fun r =>
      r.1.2 = c ∧ (BetweenCalls c r.2 ∧ ∃ B ⊆ {D}, r.2.Keeps B none) ∧ ∀ d, r.2.Shows d → k.Shows d := by
  have hlone : Lone c ⟨∅,none,k.file.size,true,none,none⟩ := ⟨h.shared,h.size,rfl,fun _ hp => by cases hp⟩
  have hret := (h.fits hk none).retraces hm (guarded_markRoot D hslots) (keepsFacts_markRoot D c _ hlone)
  have hends := hret.ends (F := fun _ _ => False) (P := fun r => r.1 = ((), c) ∧ k.Shows r.2) fun d hd => ?_
  · refine hends.mono (fun o k' he => ⟨he.1,fun d hd hn => he.2 d hd hn⟩) ?_
    rintro ⟨⟨_,c'⟩,k'⟩ ⟨⟨t,ht,hB,hl⟩,hp⟩
    obtain ⟨hr,-⟩ := hp _ k'.shows_view
    obtain ⟨-,rfl⟩ := Prod.mk.inj hr
    exact ⟨rfl,⟨ht.betweenCalls hl ((Finset.card_le_card hB).trans (Finset.card_singleton D).le),_,hB,ht.keeps.forget⟩,
      fun d hd => (hp d hd).2⟩
  · have hDd : d.Has D := ⟨hD.1,hd.size ▸ hD.2⟩
    rw [run_of_exec (exec_markRoot (s := ⟨c,d⟩) hDd)]
    exact ⟨rfl,hd⟩

theorem ends_refresh {rest : List Int} {μ : Map} {keys : Nat} (hm : Cache.Mirrored m) (hslots : 3 ≤ ZMXBLK)
    (h : Filed k.file D rest μ keys) (hmisc : (k.file.block ZSUPER).misc ≠ LFSHDR) (hlab : k.labelled < ZMXBLK)
    (hw : Writable ⟨c,k.file⟩) (hroot : c.super.scroot = D) (herr : c.err.qerror = 0) :
    ((refresh D c).run m k.initcntrl).Ends (fun o k' => k'.Parts o ∧ ∀ d, k'.Shows d → plain o d ≠ none) fun r =>
      r.1.2 = c.reads (k.file.block ZSUPER) ∧ BetweenCalls r.1.2 r.2 ∧ ∀ d, r.2.Shows d → k.initcntrl.Shows d := by
  have hr := h.root c hw.isopen hw.shared hw.mode hroot
  obtain ⟨-,n,t,fs,hp,-⟩ := hr
  have hz : k.file.Has ZSUPER := hp.index.store.has_used (List.mem_append_right _ h.super)
  have hD : k.file.Has D := by
    have hpos := hp.pos
    obtain ⟨n,rfl⟩ : ∃ k, n = k + 1 := ⟨n - 1,by omega⟩
    have hlink : t.link = D := hp.index.link.trans hroot
    exact hlink ▸ hp.index.has Index.link_mem
  have hsup := ends_brdsup hm hslots hp.index.store.size_nonneg hlab hw.shared herr hz h.kind h.ver hmisc hp.index.store.size
  unfold refresh
  rw [BT.run_bind]
  refine hsup.bind ?_
  rintro ⟨⟨_,_⟩,k1⟩ ⟨hr,⟨hbetween,hfree⟩,hback⟩
  obtain ⟨rfl,rfl⟩ := Prod.mk.inj hr
  have hsize : k1.file.size = k.file.size := (hback _ k1.shows_view).1.size
  refine (ends_markRoot hm (by omega) hbetween hfree ⟨hD.1,hsize ▸ hD.2⟩).mono (fun _ _ he => he) ?_
  rintro ⟨⟨_,_⟩,k2⟩ ⟨rfl,⟨hbetween2,-⟩,hback2⟩
  exact ⟨rfl,hbetween2,fun d hd => (hback d (hback2 d hd)).1⟩

end Refresh

section Sync

variable [Build] {c : Ctx} {k : Cache} {m : Prog.Machine Op Res Cache}

-- What `btsync` does before it clears the slots, and whether it does.
def syncing : BT Bool := do
  let ok ← ask .wrall
  if ok then
    if (← get).super.smod ≠ 0 then
      if ← bwrsup then
        setSuper fun p => { p with smod := 0 }
        return true
      else return false
    else return true
  else
    bterr "BTSYNC" QWRBLK .none
    return false

def clearing (r : Bool) : BT Int := do
  if r then ask .initcntrl
  btgerr

theorem btsync_eq : btsync = (syncing >>= clearing) := by
  simp only [btsync, syncing, LawfulMonad.bind_assoc]
  refine bind_congr fun ok => ?_
  cases ok with
  | false => simp [clearing]
  | true =>
      simp only [if_true, LawfulMonad.bind_assoc]
      refine bind_congr fun c => ?_
      split
      · simp only [LawfulMonad.bind_assoc]
        refine bind_congr fun w => ?_
        cases w <;> simp [clearing]
      · simp [clearing]

theorem slotSafe_syncing : SlotSafe syncing := by
  refine MarksKept.slotSafe ?_
  unfold syncing
  with_reducible repeat' first | refine .bind ?_ fun _ => ?_ | refine .ite ?_ ?_ | split
  all_goals first | exact marksKept_wrall | simp

theorem minds_syncing {t : SlotFacts} (ht : Lone c t) (hn : t.told = none) : Minds syncing c t fun _ c' t' =>
    Lone c' t' ∧ t'.dirty = some ∅ := by
  have h := minds_btsync ht hn
  rw [btsync_eq] at h
  refine Prog.Guard.mono ((Prog.guard_bind _ _ _).1 h) ?_
  rintro ⟨r,c'⟩ t' hr
  cases r with
  | false => exact hr
  | true =>
      obtain ⟨⟨-,hd⟩,hr⟩ := hr
      obtain ⟨hl,-⟩ := hr () trivial
      exact ⟨⟨hl.shared,hl.size,hl.counted,hl.told⟩,hd⟩

theorem exec_syncing {s : St} (hz : s.disk.Has ZSUPER) : exec syncing s = .done (true, s.synced) := by
  have hall : ∀ s, exec (ask .wrall) s = .done (true, s) := fun _ => rfl
  have hwr : ∀ s, exec (bwrblk ZSUPER) s = .done (true, s) := fun _ => rfl
  by_cases h0 : s.ctx.super.smod = 0
  · have hsame : s.synced = s := by
      rw [St.synced, if_pos h0, ← h0]
    simp only [syncing, exec_bind, hall, Prog.Outcome.bind_done, if_true, exec_get, h0, ne_eq, not_true_eq_false,
      if_false, exec_pure, hsame]
  · rw [St.synced, if_neg h0]
    simp only [syncing, exec_bind, hall, Prog.Outcome.bind_done, if_true, exec_get, h0, ne_eq, not_false_eq_true,
      exec_ite, bwrsup, exec_brdblk, Disk.read_eq hz, exec_bgtinf hz, Block.getInf_ZNKEYS, exec_bsetbk hz, hwr,
      not_true_eq_false, if_false, exec_pure, exec_setSuper]
    rfl

theorem ends_btsync (hslots : 3 ≤ ZMXBLK) (h : BetweenCalls c k) (hz : k.file.Has ZSUPER) :
    ((btsync c).run Cache.alone k).Ends (fun o k' => k'.Parts o ∧ ∀ d, k'.Shows d → plain o d ≠ none) fun r =>
      r.1.2 = { c with super.smod := 0 } ∧ r.2.initcntrl = r.2 ∧ r.2.labelled < ZMXBLK ∧
        ∃ d, k.Shows d ∧ r.2.file = (St.synced ⟨c,d⟩).disk := by
  have hret := h.retraces Cache.mirrors_alone (x := syncing) (Q := fun _ _ t => t.dirty = some ∅) none hslots
    (fun _ hp => by cases hp) slotSafe_syncing fun t ht hn => minds_syncing ht hn
  have hends := hret.ends (F := fun _ _ => False) (P := fun r => ∃ d, k.Shows d ∧
      r.1 = (true, (St.synced ⟨c,d⟩).ctx) ∧ r.2 = (St.synced ⟨c,d⟩).disk) fun d hd => ?_
  · rw [btsync_eq, BT.run_bind]
    refine (hends.mono (fun o k' he => ⟨he.1,fun d hd hn => he.2 d hd hn⟩) fun r hr => hr).bind ?_
    rintro ⟨⟨r,c'⟩,k'⟩ ⟨⟨hbetween,t,hb,⟨hlone,-⟩,hd⟩,hp⟩
    obtain ⟨d,hs,hr,hfile⟩ := hp _ (hb.shows_file hlone.counted hd)
    obtain ⟨rfl,rfl⟩ := Prod.mk.inj hr
    obtain ⟨B,hk,-⟩ := hbetween.keeps
    exact ⟨rfl,rfl,hk.labelled,d,hs,hfile⟩
  · have hzd : d.Has ZSUPER := ⟨hz.1,hd.size ▸ hz.2⟩
    rw [run_of_exec (exec_syncing (s := ⟨c,d⟩) hzd)]
    exact ⟨d,hd,rfl,rfl⟩

end Sync

section Turn

variable [Build] {c : Ctx} {k : Cache} {D : Int} {rest : List Int} {μ : Map} {keys : Nat}

theorem ends_answer_shown {m : Prog.Machine Op Res Cache} (hm : Cache.Mirrored m) (hcap : 8 ≤ ZMXKEY) (hslots : 3 ≤ ZMXBLK)
    (h : BetweenCalls c k) (hroot : ∀ d, k.Shows d → Root ⟨c,d⟩ rest μ keys) (call : Call) (hkey : call.key.length ≤ 31)
    (hfuel : 2 * (keys + 1) + 3 ≤ FUEL) :
    ((call.answer c).run m k).Ends
      (fun o k' => k'.Parts o ∧ ∀ d, k'.Shows d → plain o d = none → Refused c.super.scroot o d) fun r =>
        (BetweenCalls r.1.2 r.2 ∧ Told c.super r.1.2.super) ∧ ∀ d, r.2.Shows d → r.1.1 = (call.ofMap μ).1 ∧
          Viewed c k rest (call.ofMap μ).2 (keys + 1) ⟨r.1.2,d⟩ := by
  have hcalls := ends_keyCalls_shown hm hcap hslots h hroot [.keep call]
    (fun a ha => by rw [List.mem_singleton.1 ha]; exact hkey) hfuel
    fun _ _ => ⟨trivial,fun _ _ _ => trivial⟩
  simp only [KeyCall.answers, KeyCall.answer] at hcalls
  rw [BT.run_bind, Prog.Outcome.ends_bind] at hcalls
  refine hcalls.mono (fun _ _ he => he) ?_
  rintro ⟨⟨a,c'⟩,k'⟩ ⟨hs,hp⟩
  refine ⟨hs,fun d hd => ?_⟩
  obtain ⟨ha,hv⟩ := hp d hd
  exact ⟨(List.cons.inj ha).1,hv⟩

theorem Call.run_tail (call : Call) (r : Int × Int) : ∃ g : Err → (Int × Option Int) × Err, ∀ c k,
    (call.tail r c).run Cache.alone k = .done (((g c.err).1, { c with err := (g c.err).2 }), k) := by
  cases call with
  | insert key val => exact ⟨fun e => ((e.qerror, none), e),fun _ _ => rfl⟩
  | update key val => exact ⟨fun e => ((e.qerror, none), e),fun _ _ => rfl⟩
  | find key =>
      unfold Call.tail
      by_cases hr : r.1 = 0
      · simp only [hr, ne_eq, not_true_eq_false, if_false]
        exact ⟨fun e => ((e.qerror, if e.qerror = 0 then some r.2 else none), e),fun _ _ => rfl⟩
      · simp only [hr, ne_eq, not_false_eq_true, if_true]
        let bad (e : Err) : Err := if e.qerror = 0 then ⟨"BFNDKY",QNOKEY,.key (keycpy key)⟩ else e
        exact ⟨fun e => (((bad e).qerror, if (bad e).qerror = 0 then some r.2 else none), bad e),fun _ _ => rfl⟩

-- A shared handle between two calls: it holds no lock, and its slots are clear.
structure Vacant (D : Int) (c : Ctx) (k : Cache) : Prop where
  isopen : c.isopen = true
  shared : c.shared = true
  lckcnt : c.lckcnt = 0
  root : c.super.scroot = D
  mode : c.super.smode = 0
  smod : 0 ≤ c.super.smod
  clear : k.initcntrl = k
  labelled : k.labelled < ZMXBLK

theorem Vacant.withFile (h : Vacant D c k) (f : Disk) : Vacant D c { k with file := f } :=
  ⟨h.isopen,h.shared,h.lckcnt,h.root,h.mode,h.smod,congrArg (fun k : Cache => { k with file := f }) h.clear,h.labelled⟩

-- The handle as one of its own.
def Ctx.own (c : Ctx) : Ctx := { c.clear with shared := false }

omit [Build] in
theorem Ctx.withLock_own (hs : c.shared = true) (hl : c.lckcnt = 0) : c.own.withLock 0 = c.clear := by
  rw [Ctx.own, Ctx.withLock, Ctx.clear, ← hs, ← hl]

theorem ignoresLock_refresh {p : Prop} {l : Int} (root : Int) : IgnoresLock p l (refresh root) := by
  unfold refresh markRoot
  with_reducible repeat' first | refine .bind ?_ fun _ => ?_ | split
  all_goals simp

section Runs

variable {α β : Type} {f : α → BT β} {fn : String} {busy : α} {body : BT α}

theorem locked_bind : (locked fn busy body >>= f) = (do
    let ok ← enter fn
    let a ← if ok then body else pure busy
    leave
    f a) := by
  simp only [locked, within, LawfulMonad.bind_assoc, pure_bind]
  refine bind_congr fun ok => ?_
  cases ok <;> simp

theorem run_locked_own (hs : c.shared = false) : (locked fn busy body >>= f) c = (do let a ← body; leave; f a) c := by
  rw [locked_bind]
  change Prog.bind (enter fn c) _ = _
  rw [enter_own hs]
  rfl

theorem block_withLock : block (c.withLock 0) = (do
    let ok ← ask .lock
    if ok then
      if (c.withLock 0).shared ∧ (c.withLock 0).super.scroot ≠ ZNULL then refresh (c.withLock 0).super.scroot
      modify fun c => { c with lckcnt := 1 }
      return true
    else return false : BT Bool) (c.withLock 0) := by
  have hopen : block (c.withLock 0) = (do
      let ok ← ask .lock
      if ok then
        if (c.withLock 0).shared ∧ (c.withLock 0).super.scroot ≠ ZNULL then
          let _ ← brdsup
          match ← brdblk (c.withLock 0).super.scroot with
          | none => pure ()
          | some _ => bsetbs (c.withLock 0).super.scroot true
        modify fun c => { c with lckcnt := 1 }
        return true
      else return false : BT Bool) (c.withLock 0) := rfl
  rw [hopen]
  refine congrFun (bind_congr fun (ok : Bool) => ?_) _
  cases ok with
  | false => rfl
  | true =>
      simp only [if_true]
      split
      · simp only [refresh, markRoot, LawfulMonad.bind_assoc]
        refine bind_congr fun _ => bind_congr fun r => ?_
        cases r <;> simp
      · simp

theorem run_block (hroot : c.super.scroot ≠ ZNULL) : (block (c.withLock 0)).run Cache.alone k =
    ((refresh c.super.scroot (c.withLock 0)).run Cache.alone { k with turn := k.turn + 1 }).bind fun r =>
      .done ((true, { r.1.2 with lckcnt := 1 }), r.2) := by
  have hlet : ((block (c.withLock 0)).run Cache.alone k) = (((do
      if (c.withLock 0).shared ∧ (c.withLock 0).super.scroot ≠ ZNULL then refresh (c.withLock 0).super.scroot
      modify fun c => { c with lckcnt := 1 }
      return true : BT Bool)) (c.withLock 0)).run Cache.alone { k with turn := k.turn + 1 } := by
    rw [block_withLock]
    rfl
  have hcond : (c.withLock 0).shared = true ∧ (c.withLock 0).super.scroot ≠ ZNULL := ⟨rfl,hroot⟩
  rw [hlet, if_pos hcond, BT.run_bind]
  rfl

theorem run_locked_shared (hroot : c.super.scroot ≠ ZNULL) :
    ((locked fn busy body >>= f) (c.withLock 0)).run Cache.alone k =
      ((refresh c.super.scroot (c.withLock 0)).run Cache.alone { k with turn := k.turn + 1 }).bind fun r =>
        ((do let a ← body; leave; f a) { r.1.2 with lckcnt := 1 }).run Cache.alone r.2 := by
  have henter : enter fn (c.withLock 0) = (do
      let ok ← block
      if ¬ ok then bterr fn QBUSY .none
      pure ok : BT Bool) (c.withLock 0) := rfl
  rw [locked_bind, BT.run_bind, henter, BT.run_bind, run_block hroot]
  cases (refresh c.super.scroot (c.withLock 0)).run Cache.alone { k with turn := k.turn + 1 } <;> rfl

theorem run_leave_shared {f : BT β} : ((do leave; f) (c.withLock 1)).run Cache.alone k =
    ((btsync (c.withLock 1)).run Cache.alone k).bind fun r => (f { r.1.2 with lckcnt := 0 }).run Cache.alone r.2 := by
  have hleave : leave (c.withLock 1) = (do
      let _ ← btsync
      let ok ← ask .unlock
      if ¬ ok then bterr "BULOCK" QUNLCK .none
      modify fun c => { c with lckcnt := 0 } : BT Unit) (c.withLock 1) := rfl
  rw [BT.run_bind, hleave, BT.run_bind]
  cases (btsync (c.withLock 1)).run Cache.alone k <;> rfl

theorem leave_own_bind (hs : c.shared = false) {f : BT β} : (do leave; f) c = f c := by
  change Prog.bind (leave c) _ = _
  rw [leave_own hs]
  rfl

end Runs

theorem ends_shared (hcap : 8 ≤ ZMXKEY) (hslots : 3 ≤ ZMXBLK) (hv : Vacant D c k) (hf : Filed k.file D rest μ keys)
    (hmisc : (k.file.block ZSUPER).misc ≠ LFSHDR) (call : Call) (hkey : call.key.length ≤ 31)
    (hfuel : 2 * (keys + 1) + 3 ≤ FUEL) :
    ((call.answer c).run Cache.alone k).Ends Stops fun r =>
      r.1.1 = (call.ofMap μ).1 ∧ Vacant D r.1.2 r.2 ∧ Filed r.2.file D rest (call.ofMap μ).2 (keys + 1) ∧
        ∀ b ∈ rest, b ≠ ZSUPER → r.2.file.block b = k.file.block b := by
  obtain ⟨hopen,hshared,hlock,hD,hmode,hsmod,hclear,hlab⟩ := hv
  obtain ⟨own,hown⟩ : ∃ own : Ctx, own = c.own := ⟨_,rfl⟩
  have hlock : c.clear = own.withLock 0 := by rw [hown, Ctx.withLock_own hshared hlock]
  have hw : Writable ⟨own,k.file⟩ := by
    rw [hown]
    exact ⟨hopen,rfl,hmode⟩
  have hDown : own.super.scroot = D := by rw [hown]; exact hD
  have hroot0 := hf.root own hw.isopen hw.shared hw.mode hDown
  have hnull : own.super.scroot ≠ ZNULL := by
    obtain ⟨-,n,t,fs,hp,-⟩ := hroot0
    have hpos := hp.pos
    obtain ⟨n,rfl⟩ : ∃ k, n = k + 1 := ⟨n - 1,by omega⟩
    have hlink : t.link = own.super.scroot := hp.index.link
    exact hlink ▸ (hp.index.has Index.link_mem).ne_null
  rw [call.answer_eq hopen hmode, hlock, run_locked_shared hnull, hDown]
  -- it is let in
  have hrefresh := ends_refresh (k := { k with turn := k.turn + 1 }) Cache.mirrors_alone hslots hf hmisc hlab hw hDown
    (by rw [hown]; rfl)
  have hsame : ({ k with turn := k.turn + 1 } : Cache).initcntrl = { k with turn := k.turn + 1 } := by
    conv_rhs => rw [← hclear]
    rfl
  rw [hsame] at hrefresh
  have hrefresh := ((ignoresLock_refresh (p := False) (l := 0) D).alike 0 le_rfl (own.withLock 0) own ⟨hw.shared,False.elim,rfl⟩).ends
    Cache.alone _ hrefresh
  refine (hrefresh.mono (fun o k' he => ⟨he.1,fun d hd hn => absurd hn (he.2 d hd)⟩) fun r hr => hr).bind ?_
  rintro ⟨⟨_,c0⟩,k1⟩ ⟨⟨_,c1⟩,⟨-,-,-,hc0⟩,hc1,hbetween,hback⟩
  simp only at hc0 hc1 hbetween hback ⊢
  subst hc0
  obtain rfl : c1 = own.reads (k.file.block ZSUPER) := hc1
  have hshow : ∀ d, k1.Shows d → d.size = k.file.size ∧ ∀ b, k.file.Has b → d.block b = k.file.block b := fun d hd =>
    Cache.shows_initcntrl (k := { k with turn := k.turn + 1 }) (by rw [hsame]; exact hback d hd)
  have hin : ∀ b ∈ rest, k.file.Has b := fun b hb => hroot0.has hb
  have hview : ∀ b ∈ rest, k1.view b = k.file.block b := fun b hb => (hshow _ k1.shows_view).2 b (hin b hb)
  have hrootd : ∀ d, k1.Shows d → Root ⟨own.reads (k.file.block ZSUPER),d⟩ rest μ keys := fun d hd =>
    hroot0.asIs ⟨rfl,rfl,rfl,(hshow d hd).1,fun b _ hb => (hshow d hd).2 b hb⟩ ⟨hw.isopen,hw.shared,hw.mode⟩
  -- what it does with the lock
  have hans := ends_answer_shown Cache.mirrors_alone hcap hslots hbetween hrootd call hkey hfuel
  have herr : (own.reads (k.file.block ZSUPER)).clear = own.reads (k.file.block ZSUPER) := by rw [hown]; rfl
  rw [call.answer_eq (c := own.reads (k.file.block ZSUPER)) hw.isopen hw.mode, herr,
    run_locked_own (c := own.reads (k.file.block ZSUPER)) hw.shared, BT.run_bind, Prog.Outcome.ends_bind] at hans
  have hbody := ((call.ignoresLock_body Int.one_pos).alike 1 le_rfl ((own.reads (k.file.block ZSUPER)).withLock 1)
    (own.reads (k.file.block ZSUPER)) ⟨hw.shared,False.elim,rfl⟩).ends Cache.alone _ hans
  change (((do let a ← call.body; leave; call.tail a : BT (Int × Option Int))
    ((own.reads (k.file.block ZSUPER)).withLock 1)).run Cache.alone k1).Ends _ _
  rw [BT.run_bind]
  refine (hbody.mono (fun o k' he => ⟨he.1,fun d hd hn => ⟨_,he.2 d hd hn⟩⟩) fun r hr => hr).bind ?_
  rintro ⟨⟨a,c0⟩,k2⟩ ⟨⟨a',c2⟩,⟨ha,hs2,-,hc0⟩,hpost⟩
  obtain rfl : a = a' := ha
  obtain rfl : c0 = c2.withLock 1 := hc0
  obtain ⟨g,hg⟩ := call.run_tail a
  simp only [leave_own_bind hs2, hg, Prog.Outcome.ends_done] at hpost ⊢
  obtain ⟨⟨hbetween2,htold⟩,hp⟩ := hpost
  obtain ⟨hcode,hleft⟩ := hp _ k2.shows_view
  have hbetween2 : BetweenCalls c2 k2 := ⟨hs2,hbetween2.size,hbetween2.keeps,hbetween2.backed⟩
  have hz : k2.file.Has ZSUPER := hleft.root.has hf.super
  -- it gives the lock back
  have hsync := ((ignoresLock_btsync (p := False) (l := 1)).alike 1 le_rfl (c2.withLock 1) c2 ⟨hs2,False.elim,rfl⟩).ends Cache.alone _
    (ends_btsync hslots hbetween2 hz)
  rw [run_leave_shared]
  refine (hsync.mono (fun o k' he => ⟨he.1,fun d hd hn => absurd hn (he.2 d hd)⟩) fun r hr => hr).bind ?_
  rintro ⟨⟨_,c0⟩,k3⟩ ⟨⟨_,c3⟩,⟨-,-,-,hc0⟩,hc3,hclear3,hlab3,d,hd,hfile⟩
  obtain rfl : c0 = c3.withLock 1 := hc0
  obtain rfl : c3 = { c2 with super.smod := 0 } := hc3
  simp only at hclear3 hlab3 hfile ⊢
  rw [hg]
  have hkept := (hp d hd).2
  have hblock : ∀ b ∈ rest, d.block b = k.file.block b := fun b hb => (hkept.other b hb).trans (hview b hb)
  have hsuper := hblock ZSUPER hf.super
  have hroot2 : Root ⟨c2,d⟩ rest (call.ofMap μ).2 (keys + 1) :=
    hkept.root.asIs ⟨rfl,rfl,rfl,rfl,fun _ _ _ => rfl⟩ ⟨hkept.root.1.isopen,hs2,hkept.root.1.mode⟩
  have hstep : InStep c2.super (d.block ZSUPER) := by
    rw [hsuper]
    refine InStep.told (p := (own.reads (k.file.block ZSUPER)).super) ⟨?_,fun _ => ⟨rfl,rfl,rfl⟩⟩ htold
    rw [hown]
    exact hsmod
  have hscroot : c2.super.scroot = D := hkept.scroot.trans hDown
  have hfiled := hroot2.filed hf.super hstep (by rw [hsuper]; exact hf.ver) (by rw [hsuper]; exact hf.kind)
  rw [← hfile, hscroot] at hfiled
  refine ⟨hcode,⟨hroot2.1.isopen,rfl,rfl,hscroot,hroot2.1.mode,le_rfl,hclear3,hlab3⟩,hfiled,fun b hb hbz => ?_⟩
  rw [hfile, St.synced_block hbz]
  exact hblock b hb

end Turn

end Btlib
