import Btlib.Walk.Allot
import Btlib.Index.Calls

namespace Btlib

variable [Build] {os : List Int} {s s' s'' : St} {α : Type} {E : Op → Disk → Prop}

-- What a handle that has just been let in finds in the superroot, with nothing left to write.
structure Synced (s : St) : Prop where
  has : s.disk.Has ZSUPER
  type : (s.disk.block ZSUPER).btype = ZROOT
  ver : (s.disk.block ZSUPER).getInf .ZBTVER = ZVERS
  misc : (s.disk.block ZSUPER).misc = s.ctx.super.snfree
  nxblk : (s.disk.block ZSUPER).nxblk = s.ctx.super.sfreep
  nblks : (s.disk.block ZSUPER).nblks = s.ctx.super.sblkmx
  free : s.ctx.super.snfree < LFSHDR
  smod : s.ctx.super.smod = 0

-- A handle that has a root of its own or shares it, with or without the lock; the blocks `os` are not of its root.
structure Open (os : List Int) (s : St) : Prop where
  isopen : s.ctx.isopen = true
  root : s.disk.Has s.ctx.super.scroot
  super : s.ctx.shared = true → ZSUPER ∈ os ∨ s.ctx.super.scroot = ZSUPER
  count : s.ctx.shared = true → 0 ≤ s.ctx.lckcnt
  synced : s.ctx.shared = true → s.ctx.lckcnt = 0 → Synced s

-- The handle has been let in.
def St.entered (s : St) : St :=
  { s with ctx.lckcnt := if s.ctx.shared then s.ctx.lckcnt + 1 else s.ctx.lckcnt }

omit [Build] in
theorem entered_own (h : s.ctx.shared = false) : s.entered = s := by
  rw [St.entered, h]
  rfl

omit [Build] in
theorem entered_shared (h : s.ctx.shared = true) : s.entered = { s with ctx.lckcnt := s.ctx.lckcnt + 1 } := by
  rw [St.entered, h, if_pos rfl]

theorem exec_brdsup (h : Synced s) : exec brdsup s = .done (s.ctx.err.qerror, s) := by
  have hver : ¬ ZVERS = LFSHDR := by decide
  have hmisc : ¬ s.ctx.super.snfree = LFSHDR := h.free.ne
  simp only [brdsup, exec_bind, exec_brdblk, Disk.read_eq h.has, Prog.Outcome.bind_done, exec_bgtinf h.has,
    Block.getInf_ZBTYPE, Block.getInf_ZMISC, Block.getInf_ZNXBLK, Block.getInf_ZNBLKS, h.ver, h.type, h.misc, h.nxblk,
    h.nblks, ne_eq, not_true_eq_false, if_false, hver, hmisc, exec_setSuper, exec_btgerr]

theorem exec_enter (h : Open os s) (fn : String) : exec (enter fn) s = .done (true, s.entered) := by
  cases hsh : s.ctx.shared with
  | false =>
      rw [entered_own hsh]
      simp only [enter, exec_bind, exec_get, Prog.Outcome.bind_done, hsh, Bool.false_eq_true, if_false, exec_pure]
  | true =>
      have hroot : s.ctx.super.scroot ≠ ZNULL := h.root.ne_null
      have hlock : exec (ask .lock) s = .done (true, s) := rfl
      rw [entered_shared hsh]
      simp only [enter, exec_bind, exec_get, Prog.Outcome.bind_done, hsh, if_true, block, exec_ite, hlock]
      split
      · simp only [exec_modify, exec_pure, Prog.Outcome.bind_done, not_true_eq_false, if_false, hsh]
      · rename_i h0
        have hcnt : s.ctx.lckcnt = 0 := by
          have := h.count hsh
          omega
        simp only [exec_bind, Prog.Outcome.bind_done, true_and, ne_eq, hroot, not_false_eq_true, if_true,
          exec_brdsup (h.synced hsh hcnt), exec_brdblk, Disk.read_eq h.root, exec_bsetbs h.root, exec_modify, exec_pure,
          not_true_eq_false, if_false, hcnt, zero_add, hsh]

-- What the calls in between leave alone.
structure Remains (s s' : St) : Prop where
  isopen : s'.ctx.isopen = s.ctx.isopen
  shared : s'.ctx.shared = s.ctx.shared
  lckcnt : s'.ctx.lckcnt = s.ctx.lckcnt
  root : s'.ctx.super.scroot = s.ctx.super.scroot
  allots : Allots s.ctx s'.ctx
  super : s.ctx.shared = true → (s.disk.block ZSUPER).SameInfo (s'.disk.block ZSUPER)
  rootHas : s.disk.Has s.ctx.super.scroot → s'.disk.Has s.ctx.super.scroot
  superHas : s.ctx.shared = true → s.disk.Has ZSUPER → s'.disk.Has ZSUPER

omit [Build] in
theorem Remains.refl (s : St) : Remains s s :=
  ⟨rfl,rfl,rfl,rfl,drift_allots.refl _,fun _ => Block.SameInfo.refl _,id,fun _ => id⟩

omit [Build] in
theorem Remains.trans (h : Remains s s') (h' : Remains s' s'') : Remains s s'' :=
  ⟨h'.isopen.trans h.isopen,h'.shared.trans h.shared,h'.lckcnt.trans h.lckcnt,h'.root.trans h.root,
    drift_allots.trans h.allots h'.allots,fun hs => (h.super hs).trans (h'.super (h.shared.trans hs)),
    fun hb => h.root ▸ h'.rootHas (h.root ▸ h.rootHas hb),
    fun hs hb => h'.superHas (h.shared.trans hs) (h.superHas hs hb)⟩

theorem Open.stays (h : Open os s.entered) (hst : Remains s.entered s') (hc : s.ctx.shared = true → 0 ≤ s.ctx.lckcnt) :
    Open os s' := by
  refine ⟨hst.isopen.trans h.isopen,?_,fun hs => ?_,fun hs => ?_,fun hs h0 => ?_⟩
  · rw [hst.root]
    exact hst.rootHas h.root
  · rw [hst.root]
    exact h.super (hst.shared ▸ hs)
  · rw [hst.lckcnt]
    exact h.count (hst.shared ▸ hs)
  · have hsh : s.ctx.shared = true := hst.shared ▸ hs
    have hcnt : s'.ctx.lckcnt = s.ctx.lckcnt + 1 := by rw [hst.lckcnt, entered_shared hsh]
    have := hc hsh
    omega

theorem Open.entered (h : Open os s) : Open os s.entered := by
  refine ⟨h.isopen,h.root,h.super,fun hs => ?_,fun hs h0 => ?_⟩
  all_goals
    have hs : s.ctx.shared = true := hs
    have := h.count hs
    rw [entered_shared hs] at *
  · change 0 ≤ s.ctx.lckcnt + 1
    omega
  · change s.ctx.lckcnt + 1 = 0 at h0
    omega

omit [Build] in
theorem Remains.withCtx {c : Ctx} (h : Remains s s') (hopen : c.isopen = s'.ctx.isopen) (hshared : c.shared = s'.ctx.shared)
    (hcnt : c.lckcnt = s'.ctx.lckcnt) (hsuper : c.super = s'.ctx.super) : Remains s ⟨c,s'.disk⟩ :=
  ⟨hopen.trans h.isopen,hshared.trans h.shared,hcnt.trans h.lckcnt,(congrArg Super.scroot hsuper).trans h.root,
    drift_allots.trans h.allots (.of_super hsuper),h.super,h.rootHas,h.superHas⟩

theorem Open.withCtx {c : Ctx} (h : Open os s) (hopen : c.isopen = s.ctx.isopen) (hshared : c.shared = s.ctx.shared)
    (hcnt : c.lckcnt = s.ctx.lckcnt) (hsuper : c.super = s.ctx.super) : Open os ⟨c,s.disk⟩ := by
  refine ⟨hopen.trans h.isopen,?_,fun hs => ?_,fun hs => ?_,fun hs h0 => ?_⟩
  · change s.disk.Has c.super.scroot
    rw [hsuper]
    exact h.root
  · change ZSUPER ∈ os ∨ c.super.scroot = ZSUPER
    rw [hsuper]
    exact h.super (hshared ▸ hs)
  · change 0 ≤ c.lckcnt
    rw [hcnt]
    exact h.count (hshared ▸ hs)
  · have hsync := h.synced (hshared ▸ hs) (hcnt ▸ h0)
    refine ⟨hsync.has,hsync.type,hsync.ver,?_,?_,?_,?_,?_⟩ <;> simp only [hsuper]
    · exact hsync.misc
    · exact hsync.nxblk
    · exact hsync.nblks
    · exact hsync.free
    · exact hsync.smod

-- The keys of a block that has been written anew.
structure SameKeys (b b' : Block) : Prop where
  btype : b.btype = ZROOT → b'.btype = ZROOT
  nkeys : b'.nkeys = b.nkeys
  keyblk : b'.keyblk = b.keyblk
  lnkblk : b'.lnkblk = b.lnkblk

-- A handle that has been let out again may have written the superroot; where it has kept the lock, it has not.
structure Out (s s' : St) : Prop where
  ctx : s'.ctx = { s.ctx with lckcnt := s'.ctx.lckcnt, super.smod := s'.ctx.super.smod }
  size : s'.disk.size = s.disk.size
  keys : SameKeys (s.disk.block ZSUPER) (s'.disk.block ZSUPER)
  other : ∀ b, b ≠ ZSUPER → s'.disk.block b = s.disk.block b
  kept : s.ctx.shared = false ∨ 1 < s.ctx.lckcnt → s'.disk = s.disk ∧ s'.ctx.super = s.ctx.super

omit [Build] in
theorem SameKeys.refl (b : Block) : SameKeys b b := ⟨id,rfl,rfl,rfl⟩

omit [Build] in
theorem Holds.sameKeys {n : Nat} {D D' : Int → Block} {t : KeyTree n} (h : Holds D t)
    (hD : ∀ b, SameKeys (D b) (D' b)) : Holds D' t := by
  induction n with
  | zero => trivial
  | succ n ih =>
      obtain ⟨b,es,ks,rfl⟩ := t.eq_node
      rw [holds_node] at h ⊢
      refine ⟨⟨?_,?_,?_⟩,fun k hk => ih (h.2 k hk)⟩
      · rw [(hD b).nkeys, h.1.nkeys]
      · rw [(hD b).keyblk]
        exact h.1.keys
      · rw [(hD b).lnkblk]
        exact h.1.links

theorem exec_btsync (h : s.disk.Has ZSUPER) : ∃ s', exec btsync s = .done (s.ctx.err.qerror, s') ∧
    s'.ctx = { s.ctx with super.smod := 0 } ∧ s'.disk = if s.ctx.super.smod = 0 then s.disk else
      s.disk.put ZSUPER ((s.disk.block ZSUPER).setBk ZROOT s.ctx.super.snfree s.ctx.super.sfreep
        (s.disk.block ZSUPER).nkeys s.ctx.super.sblkmx ZNULL) := by
  have hall : ∀ s, exec (ask .wrall) s = .done (true, s) := fun _ => rfl
  have hini : ∀ s, exec (ask .initcntrl) s = .done ((), s) := fun _ => rfl
  have hwr : ∀ s, exec (bwrblk ZSUPER) s = .done (true, s) := fun _ => rfl
  by_cases h0 : s.ctx.super.smod = 0
  · refine ⟨s,?_,?_,(if_pos h0).symm⟩
    · simp only [btsync, exec_bind, hall, Prog.Outcome.bind_done, if_true, exec_get, h0, ne_eq, not_true_eq_false,
        if_false, hini, exec_btgerr]
    · rw [← h0]
  · rw [if_neg h0]
    refine ⟨⟨{ s.ctx with super.smod := 0 },s.disk.put ZSUPER ((s.disk.block ZSUPER).setBk ZROOT s.ctx.super.snfree
      s.ctx.super.sfreep (s.disk.block ZSUPER).nkeys s.ctx.super.sblkmx ZNULL)⟩,?_,rfl,rfl⟩
    simp only [btsync, exec_bind, hall, Prog.Outcome.bind_done, if_true, exec_get, h0, ne_eq, not_false_eq_true,
      hini, exec_btgerr, bwrsup, exec_brdblk, Disk.read_eq h, exec_bgtinf h, Block.getInf_ZNKEYS, exec_bsetbk h, hwr,
      not_true_eq_false, if_false, exec_pure, exec_setSuper]

omit [Build] in
theorem Remains.out (h : Remains s.entered s') (ho : Out s' s'') (hcnt : s''.ctx.lckcnt = s.ctx.lckcnt)
    (hk : s.ctx.shared = false ∨ 0 < s.ctx.lckcnt) : Remains s s'' := by
  have hkept : s'.ctx.shared = false ∨ 1 < s'.ctx.lckcnt := by
    cases hsh : s.ctx.shared with
    | false => exact Or.inl (h.shared.trans hsh)
    | true =>
        have hlck := hk.resolve_left (by simp [hsh])
        rw [h.lckcnt, entered_shared hsh]
        exact Or.inr (by change 1 < s.ctx.lckcnt + 1; omega)
  obtain ⟨hdisk,hsuper⟩ := ho.kept hkept
  have hopen : s''.ctx.isopen = s'.ctx.isopen ∧ s''.ctx.shared = s'.ctx.shared := by
    rw [ho.ctx]
    exact ⟨rfl,rfl⟩
  refine ⟨hopen.1.trans h.isopen,hopen.2.trans h.shared,hcnt,?_,⟨?_,?_,?_⟩,?_,?_,?_⟩
  · rw [hsuper]
    exact h.root
  · rw [hsuper]
    exact h.allots.free
  · rw [hsuper]
    exact h.allots.smod
  · rw [hsuper]
    exact h.allots.same
  · rw [hdisk]
    exact h.super
  · rw [hdisk]
    exact h.rootHas
  · rw [hdisk]
    exact h.superHas

theorem sameKeys_setBk (b : Block) (misc nxblk nblks dupblk : Int) :
    SameKeys b (b.setBk ZROOT misc nxblk b.nkeys nblks dupblk) := ⟨fun _ => rfl,rfl,rfl,rfl⟩

-- What `btsync` leaves is what the next one to be let in finds.
theorem Synced.after (h : Synced s) (ha : Allots s.ctx s'.ctx) (hi : (s.disk.block ZSUPER).SameInfo (s'.disk.block ZSUPER))
    (hhas : s'.disk.Has ZSUPER) (hc : s''.ctx.super = { s'.ctx.super with smod := 0 })
    (hd : s''.disk = if s'.ctx.super.smod = 0 then s'.disk else
      s'.disk.put ZSUPER ((s'.disk.block ZSUPER).setBk ZROOT s'.ctx.super.snfree s'.ctx.super.sfreep
        (s'.disk.block ZSUPER).nkeys s'.ctx.super.sblkmx ZNULL)) : Synced s'' := by
  have hhas' : s''.disk.Has ZSUPER := by
    rw [hd]
    split
    · exact hhas
    · exact hhas
  have hfree : s''.ctx.super.snfree < LFSHDR := by
    rw [hc]
    exact ha.free.trans_lt h.free
  have hsmod : s''.ctx.super.smod = 0 := by rw [hc]
  by_cases hm : s'.ctx.super.smod = 0
  · have heq : s'.ctx.super = s.ctx.super := ha.same (hm.trans h.smod.symm)
    have hc' : s''.ctx.super = s.ctx.super := by rw [hc, ← hm, heq]
    rw [if_pos hm] at hd
    have hver : (s''.disk.block ZSUPER).getInf .ZBTVER = (s.disk.block ZSUPER).getInf .ZBTVER := by
      rw [hd, Block.getInf, Block.getInf, hi.btver, hi.bthdr]
    refine ⟨hhas',?_,hver.trans h.ver,?_,?_,?_,hfree,hsmod⟩
    · rw [hd, hi.btype, h.type]
    · rw [hd, hi.misc, h.misc, hc']
    · rw [hd, hi.nxblk, h.nxblk, hc']
    · rw [hd, hi.nblks, h.nblks, hc']
  · rw [if_neg hm] at hd
    have hb : s''.disk.block ZSUPER = (s'.disk.block ZSUPER).setBk ZROOT s'.ctx.super.snfree s'.ctx.super.sfreep
        (s'.disk.block ZSUPER).nkeys s'.ctx.super.sblkmx ZNULL := by
      rw [hd, Disk.block_put, Function.update_self]
    refine ⟨hhas',by rw [hb]; rfl,?_,by rw [hb, hc]; rfl,by rw [hb, hc]; rfl,by rw [hb, hc]; rfl,hfree,hsmod⟩
    rw [hb]
    exact if_neg fun hv => hv.2 (if_pos hv.1)

theorem exec_leave (h : Open os s) (hst : Remains s.entered s') : ∃ s'', exec leave s' = .done ((), s'') ∧
    Open os s'' ∧ Out s' s'' ∧ s''.ctx.lckcnt = s.ctx.lckcnt := by
  have hroot : s'.disk.Has s'.ctx.super.scroot := by
    rw [hst.root]
    exact hst.rootHas h.root
  have hopen : s'.ctx.isopen = true := hst.isopen.trans h.isopen
  have hsup : s'.ctx.shared = true → ZSUPER ∈ os ∨ s'.ctx.super.scroot = ZSUPER := fun hs => by
    rw [hst.root]
    exact h.super (hst.shared ▸ hs)
  cases hsh : s.ctx.shared with
  | false =>
      rw [entered_own hsh] at hst
      have hsh' := hst.shared.trans hsh
      refine ⟨s',?_,⟨hopen,hroot,hsup,fun hc => ?_,fun hc => ?_⟩,
        ⟨rfl,rfl,SameKeys.refl _,fun _ _ => rfl,fun _ => ⟨rfl,rfl⟩⟩,hst.lckcnt⟩
      · simp only [leave, exec_bind, exec_get, Prog.Outcome.bind_done, hsh', Bool.false_eq_true, if_false, exec_pure]
      · rw [hsh'] at hc
        cases hc
      · rw [hsh'] at hc
        cases hc
  | true =>
      rw [entered_shared hsh] at hst
      have hsh' : s'.ctx.shared = true := hst.shared.trans hsh
      have hcnt : s'.ctx.lckcnt = s.ctx.lckcnt + 1 := hst.lckcnt
      have hcount := h.count hsh
      simp only [leave, exec_bind, exec_get, Prog.Outcome.bind_done, hsh', if_true, bulock, exec_ite, hcnt]
      by_cases h0 : s.ctx.lckcnt = 0
      · have hsync := h.synced hsh h0
        have hhas0 : s'.disk.Has ZSUPER := hst.superHas hsh hsync.has
        obtain ⟨s1,hex,hc1,hd1⟩ := exec_btsync hhas0
        have hun : ∀ s, exec (ask .unlock) s = .done (true, s) := fun _ => rfl
        rw [if_neg (by omega), if_pos (by omega)]
        simp only [hex, Prog.Outcome.bind_done, hun, not_true_eq_false, if_false, exec_modify]
        have hother : ∀ b, b ≠ ZSUPER → s1.disk.block b = s'.disk.block b := fun b hb => by
          rw [hd1]
          split
          · rfl
          · rw [Disk.block_put, Function.update_of_ne hb]
        have hkeys : SameKeys (s'.disk.block ZSUPER) (s1.disk.block ZSUPER) := by
          rw [hd1]
          split
          · exact SameKeys.refl _
          · rw [Disk.block_put, Function.update_self]
            exact sameKeys_setBk _ _ _ _ _
        have hsize : s1.disk.size = s'.disk.size := by
          rw [hd1]
          split <;> rfl
        refine ⟨_,rfl,⟨?_,?_,?_,fun _ => le_rfl,fun _ _ => ?_⟩,⟨?_,hsize,hkeys,hother,fun hk => ?_⟩,h0.symm⟩
        · rw [hc1]
          exact hopen
        · rw [hc1, Disk.Has, hsize]
          exact hroot
        · rw [hc1]
          exact hsup
        · exact hsync.after ⟨hst.allots.free,hst.allots.smod,hst.allots.same⟩ (hst.super hsh) hhas0 (by rw [hc1]) hd1
        · rw [hc1]
        · rcases hk with hk | hk
          · rw [hsh'] at hk
            cases hk
          · omega
      · rw [if_pos (by omega), exec_modify]
        refine ⟨_,rfl,⟨hopen,hroot,hsup,fun _ => ?_,fun _ hc => ?_⟩,
          ⟨rfl,rfl,SameKeys.refl _,fun _ _ => rfl,fun _ => ⟨rfl,rfl⟩⟩,?_⟩
        · change 0 ≤ s'.ctx.lckcnt - 1
          omega
        · have hc : s'.ctx.lckcnt - 1 = 0 := hc
          omega
        · change s'.ctx.lckcnt - 1 = s.ctx.lckcnt
          omega

end Btlib
