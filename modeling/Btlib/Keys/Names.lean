import Btlib.Keys.Delete

namespace Btlib

open Multiway Links Prog

variable [Build] {m : Nat} {s s' : St} {fs D os os' : List Int} {nd : Int → Nat} {live : Finset (Int × Nat)}
  {ent : Int × Nat → DKey} {vals : KeyEnt → List Int} {t : KeyTree m} {e : KeyEnt} {key k : Key} {v svblk : Int}

-- The handle as `btdelr` makes the superroot current.
def St.atSuper (s : St) : St := { s with ctx.super.scroot := ZSUPER }

theorem Open.atSuper (h : Open os s) (hz : s.disk.Has ZSUPER) : Open os' s.atSuper := by
  refine ⟨h.isopen,hz,fun _ => Or.inr rfl,h.count,fun hs h0 => ?_⟩
  have hsync := h.synced hs h0
  exact ⟨hsync.has,hsync.type,hsync.ver,hsync.misc,hsync.nxblk,hsync.nblks,hsync.free,hsync.smod⟩

-- How `btdelr` ends: the root left before is current again.
def btdelrEnd (svblk : Int) : BT Int := do
  setRoot svblk
  if 0 ≤ svblk then bsetbs svblk true
  leave
  btgerr

theorem exec_btdelr (ho : Open os s) (hz : s.disk.Has ZSUPER) (key : Key) : exec (btdelr key) s =
    (exec (bfndky key) s.atSuper.clear.entered).bind fun r =>
      (exec (btdelrName key s.ctx.super.scroot r.1) r.2).bind fun q => exec (btdelrEnd s.ctx.super.scroot) q.2 := by
  have hclear : Open os s.clear := ho.withCtx rfl rfl rfl rfl
  have hroot : s.clear.entered.disk.Has s.ctx.super.scroot := ho.root
  have hsuper : s.clear.entered.disk.Has ZSUPER := hz
  have hge : 0 ≤ s.ctx.super.scroot := ho.root.1
  have hget : s.clear.entered.ctx.super.scroot = s.ctx.super.scroot := rfl
  rw [btdelr, exec_api ho.isopen]
  simp only [errOf, locked, within, exec_bind, exec_enter hclear, Prog.Outcome.bind_done, if_true, btdelrFind, exec_get,
    exec_ite, hget, hge, exec_bsetbs hroot, setRoot, exec_setSuper, exec_pure, Prog.Outcome.bind_assoc, btdelrEnd]
  rw [exec_bsetbs (s := { s.clear.entered with ctx.super.scroot := ZSUPER }) hsuper]
  rfl

-- A read-only handle refuses whatever the key is.
theorem exec_bdelky_readonly (hopen : s.ctx.isopen = true) (hmode : s.ctx.super.smode ≠ 0) (key key' : Option Key) :
    exec (bdelky key) s = exec (bdelky key') s := by
  have hmode : s.clear.ctx.super.smode ≠ 0 := hmode
  simp only [bdelky, modifyKey, exec_api hopen, errOf, exec_bind, exec_get, Prog.Outcome.bind_done, exec_ite, ne_eq, hmode,
    not_false_eq_true, if_true]

-- An error that has been reported is what `btdelr` comes back with.
theorem exec_btdelrEnd (herr : s.ctx.err.qerror ≠ 0) (hz : s.ctx.shared = true → s.disk.Has ZSUPER) :
    ∃ s', exec (btdelrEnd svblk) s = .done (s.ctx.err.qerror, s') := by
  have hbusy : ∀ s : St, s.ctx.err.qerror ≠ 0 → exec (bsetbs svblk true) s = .done ((), s) := fun s herr => by
    simp only [bsetbs, exec_bind, exec_brdblk, Prog.Outcome.bind_done]
    cases s.disk.read svblk with
    | none =>
        dsimp only
        rw [exec_bterr _ _ _ _ (by decide) (by decide), if_neg herr]
    | some b => rfl
  obtain ⟨s',hex,herr',-⟩ := exec_leave_any (s := { s with ctx.super.scroot := svblk }) hz
  have hrest : exec (do leave; btgerr) { s with ctx.super.scroot := svblk } = .done (s.ctx.err.qerror, s') := by
    simp only [exec_bind, hex, Prog.Outcome.bind_done, exec_btgerr, herr']
  refine ⟨s',?_⟩
  rw [← hrest]
  simp only [btdelrEnd, setRoot, exec_bind, exec_setSuper, Prog.Outcome.bind_done, exec_ite]
  split
  · rw [hbusy _ (by exact herr), Prog.Outcome.bind_done]
  · rfl

theorem carries_btdelrEnd {R : Ctx → Ctx → Prop} (hW : Working R) (svblk : Int) : Carries R (btdelrEnd svblk) := by
  have hR := hW.toHandling
  unfold btdelrEnd
  with_reducible repeat' first
    | refine hR.bind ?_ fun _ => ?_
    | refine .ite ?_ ?_
  all_goals simp [hW, hR]

theorem btdelrEnd_code {r : Int × St} (hex : exec (btdelrEnd svblk) s = .done r) : r.1 = r.2.ctx.err.qerror := by
  have hlast : ∀ x : Outcome (Unit × St), (x.bind fun q => exec btgerr q.2) = .done r → r.1 = r.2.ctx.err.qerror := by
    intro x hx
    cases x with
    | done q =>
        rw [Prog.Outcome.bind_done, exec_btgerr] at hx
        cases hx
        rfl
    | stuck o d => cases hx
    | hung => cases hx
  simp only [btdelrEnd, setRoot, exec_bind, exec_setSuper, Prog.Outcome.bind_done, exec_ite,
    ← Prog.Outcome.bind_assoc] at hex
  split at hex
  · exact hlast _ hex
  · exact hlast _ hex

theorem exec_btdelrName (key : Key) (svblk : Int) (a : Int × Int) : exec (btdelrName key svblk a) s =
    if a.1 ≠ 0 then .done (a.1, s)
    else if a.2 = svblk ∨ a.2 = ZSUPER then exec (do
      bsetbs ZSUPER false
      bterr "BTDELR" QDELCR .none
      return (0 : Int)) s
    else (exec (bdelky (some key)) s).bind fun q => exec (do
      if q.1 = 0 then freeRoot a.2
      return q.1) q.2 := by
  simp only [btdelrName, exec_ite, exec_pure, exec_bind]

omit [Build] in
theorem tally_unique {l : List Item} {w : Int} (h : tally k l = 1) (hv : (k, v) ∈ l) (hw : (k, w) ∈ l) : v = w := by
  rw [tally, List.countP_eq_length_filter, List.length_eq_one_iff] at h
  obtain ⟨a,ha⟩ := h
  have hmem : ∀ u, (k, u) ∈ l → (k, u) = a := fun u hu =>
    List.mem_singleton.1 (ha ▸ List.mem_filter.2 ⟨hu,by simp⟩)
  exact congrArg Prod.snd ((hmem v hv).trans (hmem w hw).symm)

theorem Sighted.value_mem {l : List KeyEnt} {r : (Int × Int) × St} (h : Sighted s l D os nd live ent vals k r)
    (h0 : r.1.1 = 0) : (k, r.1.2) ∈ items vals l := by
  have hval := h.value
  rw [if_pos h0, found] at hval
  cases hcur : (Cursor.seek Prod.fst k (items vals l)).cur with
  | none =>
      rw [hcur] at hval
      cases congrArg Prod.snd hval
  | some x =>
      rw [hcur] at hval
      obtain ⟨rfl,hmem⟩ := Cursor.seek_cur hcur
      have hx : r.1.2 = x.2 := Option.some.inj (congrArg Prod.snd hval)
      rw [hx]
      exact hmem

section Names

variable (hb : Sized) (hcap : 3 ≤ ZMXKEY) (ho : Open os' s) (h : Shelf s.atSuper t fs D os live ent vals)
  (hw : live = ∅ ∨ Whole s.atSuper t fs D os nd live ent) (hf : 2 * t.inorder.length + 3 ≤ FUEL)
include hb hcap ho h hw hf

theorem exec_btdelr_cut (hcut : s.ctx.super.smode ≠ 0 ∨ tally (keycpy key) (items vals t.inorder) ≠ 1 ∨
    (keycpy key, s.ctx.super.scroot) ∈ items vals t.inorder ∨ (keycpy key, ZSUPER) ∈ items vals t.inorder) :
    exec (btdelr key) s = exec (btdelr (keycpy key)) s := by
  have hz : s.disk.Has ZSUPER := h.index.has (h.index.root_mem h.pos)
  rw [exec_btdelr ho hz, exec_btdelr ho hz, bfndky_keycpy]
  refine (ends_bdelky_search hb hcap h (ho.atSuper hz) hw hf key).bind_congr fun r hr => ?_
  obtain ⟨m',t',fs',h',hin,hw',-⟩ := hr.here
  congr 1
  rw [exec_btdelrName, exec_btdelrName]
  split
  · rfl
  · rename_i hcode
    have hcode : r.1.1 = 0 := not_not.1 hcode
    split
    · rfl
    · rename_i hroot
      have hdel : exec (bdelky (some key)) r.2 = exec (bdelky (some (keycpy key))) r.2 := by
        by_cases hmode : s.ctx.super.smode = 0
        · refine exec_bdelky_cut hb hcap h' hr.isOpen hw' (hin ▸ hf) (hr.mode.trans hmode) ?_
          rw [hin]
          intro ht
          have hmem := hr.value_mem hcode
          rcases hcut with hne | hne | hmem' | hmem'
          · exact hne hmode
          · exact hne ht
          · exact hroot (Or.inl (tally_unique ht hmem hmem'))
          · exact hroot (Or.inr (tally_unique ht hmem hmem'))
        · exact exec_bdelky_readonly h'.isopen (fun h0 => hmode (hr.mode.symm.trans h0)) _ _
      rw [hdel]

variable (hmode : s.ctx.super.smode = 0) (ht : tally (keycpy key) (items vals t.inorder) = 1)
  (hcur : (keycpy key, s.ctx.super.scroot) ∉ items vals t.inorder) (hsuper : (keycpy key, ZSUPER) ∉ items vals t.inorder)
include hmode ht hcur hsuper

omit hcap ho h hw hf hmode in
theorem exec_btdelrName_found {r : (Int × Int) × St}
    (hr : Sighted s.atSuper.clear.entered t.inorder D os nd live ent vals (keycpy key) r) (name : Key) :
    exec (btdelrName name s.ctx.super.scroot r.1) r.2 = (exec (bdelky (some name)) r.2).bind fun q => exec (do
      if q.1 = 0 then freeRoot r.1.2
      return q.1) q.2 := by
  have hcode : r.1.1 = 0 := by
    cases hr.going hb with
    | missed _ h0 => omega
    | found e n s' hcode => exact hcode
  have hmem := hr.value_mem hcode
  have hne : ¬ (r.1.2 = s.ctx.super.scroot ∨ r.1.2 = ZSUPER) := by
    rintro (h0 | h0)
    · exact hcur (h0 ▸ hmem)
    · exact hsuper (h0 ▸ hmem)
  rw [exec_btdelrName, if_neg (not_not.2 hcode), if_neg hne]

theorem ends_btdelr_long (hl : ¬ key.length ≤ 31) :
    (exec (btdelr key) s).Ends (Refused ZSUPER) fun r => r.1 = QDELER := by
  have hz : s.disk.Has ZSUPER := h.index.has (h.index.root_mem h.pos)
  rw [exec_btdelr ho hz]
  refine (ends_bdelky_search hb hcap h (ho.atSuper hz) hw hf key).bind fun r hr => ?_
  obtain ⟨m',t',fs',h',hin,hw',-⟩ := hr.here
  rw [exec_btdelrName_found hb ht hcur hsuper hr, Prog.Outcome.bind_assoc]
  have hlong := ends_bdelky_long hb hcap h' hr.isOpen hw' (hin ▸ hf) (hr.mode.trans hmode) (hin ▸ ht) hl
  have hroot : r.2.ctx.super.scroot = ZSUPER := hr.stays.root
  rw [hroot] at hlong
  refine hlong.bind fun q hq => ?_
  obtain ⟨hcode,herr,hhas⟩ := hq
  have hne : ¬ q.1 = 0 := by
    rw [hcode]
    decide
  have herr' : q.2.ctx.err.qerror ≠ 0 := by
    rw [herr]
    decide
  have hend : ∃ s', exec (btdelrEnd s.ctx.super.scroot) q.2 = .done (q.2.ctx.err.qerror, s') := exec_btdelrEnd herr' hhas
  obtain ⟨s',hex⟩ := hend
  simp only [if_neg hne, exec_pure, Prog.Outcome.bind_done, hex, Prog.Outcome.ends_done, herr]

theorem within_btdelr_short : (exec (btdelr (keycpy key)) s).Within (fun _ _ => True) fun r => r.1 ≠ QDELER := by
  have hz : s.disk.Has ZSUPER := h.index.has (h.index.root_mem h.pos)
  rw [exec_btdelr ho hz, bfndky_keycpy, Prog.Outcome.within_bind]
  refine (ends_bdelky_search hb hcap h (ho.atSuper hz) hw hf key).within.mono (fun _ _ _ => trivial) fun r hr => ?_
  obtain ⟨m',t',fs',h',hin,hw',-⟩ := hr.here
  rw [exec_btdelrName_found hb ht hcur hsuper hr, Prog.Outcome.bind_assoc, Prog.Outcome.within_bind]
  refine (within_bdelky_short hb hcap h' hr.isOpen hw' (hin ▸ hf) (hr.mode.trans hmode) (by rw [keycpy_keycpy, hin, ht])
    (keycpy_length key)).mono (fun _ _ _ => trivial) fun q hq => ?_
  obtain ⟨hcode,herr⟩ := hq
  have hR := working_qdeler.toHandling
  have hfree : Carries (fun c c' => c.err.qerror ≠ QDELER → c'.err.qerror ≠ QDELER) (do
      if q.1 = 0 then freeRoot r.1.2
      return q.1 : BT Int) := by
    by_cases h0 : q.1 = 0
    · simp only [if_pos h0]
      exact hR.bind (carries_freeRoot working_qdeler _) fun _ => carries_ret hR _
    · simp only [if_neg h0]
      exact carries_ret hR _
  cases hq1 : exec (do
      if q.1 = 0 then freeRoot r.1.2
      return q.1) q.2 with
  | stuck o d => trivial
  | hung => trivial
  | done q1 =>
      rw [Prog.Outcome.bind_done]
      have herr1 := carries_exec hfree q.2 hq1 herr
      cases hq2 : exec (btdelrEnd s.ctx.super.scroot) q1.2 with
      | stuck o d => trivial
      | hung => trivial
      | done q2 =>
          have herr2 := carries_exec (carries_btdelrEnd working_qdeler _) q1.2 hq2 herr1
          change q2.1 ≠ QDELER
          rw [btdelrEnd_code hq2]
          exact herr2

end Names

end Btlib
