import Btlib.Tour.Steps
import Btlib.Machine.Free

namespace Btlib

open RoseTree

section Visits

variable [Build] {n m N : Nat} {s s' : St} {x root : Int}

def visitFree (free : Int → Bool) (blk : Int) : BT Unit := if free blk then bmkfre blk else pure ()

-- A caller that goes through the blocks of the current root, and frees those it is told to. What it is given is
-- the block it had before.
def visitLoop (free : Int → Bool) : Nat → (blk : Int) → BT (List Int)
  | 0, _ => hang
  | n + 1, blk => do
      let blk ← bnxtbk blk
      if blk = (← get).super.scroot then return [blk]
      else
        visitFree free blk
        let blks ← visitLoop free n blk
        return blk :: blks

theorem sameAt_freed (b : Int) (hb : b ≠ x) (nx : Int) :
    s.disk.SameAt ((s.disowned x).put x (((s.disowned x).block x).setBk ZFREE 0 nx 0 0 ZNULL)) b := by
  have hown : s.disk.SameAt (s.disowned x) b := by
    unfold St.disowned
    split
    · by_cases hr : b = s.ctx.super.scroot
      · subst hr
        refine ⟨id,?_,?_⟩ <;> rw [Disk.block_put, Function.update_self] <;> rfl
      · refine ⟨id,?_,?_⟩ <;> rw [Disk.block_put, Function.update_of_ne hr]
    · exact ⟨id,rfl,rfl⟩
  refine ⟨hown.has,?_,?_⟩
  · rw [Disk.block_put, Function.update_of_ne hb, hown.nkeys]
  · rw [Disk.block_put, Function.update_of_ne hb, hown.lnkblk]

theorem exec_visitFree (free : Int → Bool) (hx : s.disk.Has x) (hr : s.disk.Has s.ctx.super.scroot) :
    ∃ s', exec (visitFree free x) s = .done ((), s') ∧ s'.ctx.super.scroot = s.ctx.super.scroot ∧
      s'.ctx.lf = s.ctx.lf ∧ s'.ctx.stk = s.ctx.stk ∧ ∀ b, b ≠ x → s.disk.SameAt s'.disk b := by
  unfold visitFree
  by_cases hf : free x
  · rw [if_pos hf]
    have hexec := exec_bmkfre_eq hx hr
    exact ⟨_,hexec,rfl,rfl,rfl,fun b hb => sameAt_freed b hb _⟩
  · rw [if_neg hf]
    exact ⟨s,rfl,rfl,rfl,rfl,fun b _ => ⟨id,rfl,rfl⟩⟩

-- What the caller does with the block `x`, and then with those that are still to come.
theorem exec_visitLoop_rest (hm : m ≤ 20) (hfuel : 20 ≤ FUEL) (free : Int → Bool) (N : Nat) {k : Nat}
    (q : BlockTrail k m) (x : Int) (s : St) (hroot : s.ctx.super.scroot = root) (hw : Waits s q)
    (hq : TrailPlanted s.disk q) (hnodup : (x :: q.todo).Nodup) (hlast : (x :: q.todo).getLast? = some root)
    (hhas : ∀ b ∈ x :: q.todo, s.disk.Has b) (hN : q.todo.length ≤ N) :
    ∃ s', exec (do
      if x = (← get).super.scroot then return [x]
      else
        visitFree free x
        let blks ← visitLoop free N x
        return x :: blks : BT (List Int)) s = .done (x :: q.todo, s') := by
  induction N generalizing k q x s with
  | zero =>
      have hnil : q.todo = [] := List.length_eq_zero_iff.1 (Nat.le_zero.1 hN)
      rw [hnil, List.getLast?_singleton, Option.some_inj] at hlast
      refine ⟨s,?_⟩
      simp only [exec_bind, exec_get, Prog.Outcome.bind_done, exec_ite, hroot, if_pos hlast, exec_pure, hnil]
  | succ N ih =>
      by_cases hx : x = root
      · have hnil : q.todo = [] := by
          by_contra hne
          rw [List.getLast?_cons_of_ne_nil hne] at hlast
          exact (List.nodup_cons.1 hnodup).1 (hx ▸ List.mem_of_getLast? hlast)
        refine ⟨s,?_⟩
        simp only [exec_bind, exec_get, Prog.Outcome.bind_done, exec_ite, hroot, if_pos hx, exec_pure, hnil]
      · obtain ⟨s1,hfree,hroot1,hlf,hstk,hother⟩ := exec_visitFree free (hhas x List.mem_cons_self)
          (by rw [hroot]; exact hhas root (List.mem_of_getLast? hlast))
        have hw1 := hw.same hlf hstk
        have hsame : ∀ b ∈ q.todo, s.disk.SameAt s1.disk b := fun b hb =>
          hother b (ne_of_mem_of_not_mem hb (List.nodup_cons.1 hnodup).1)
        cases q with
        | top =>
            rw [Trail.todo_top, List.getLast?_singleton, Option.some_inj] at hlast
            exact absurd hlast hx
        | step blk i rest up =>
            obtain ⟨j,q',y,s2,hcall,hstroll,hw2,hq2,hplan⟩ := exec_bnxtbk_next hm hfuel hw1 (hq.congr hsame)
              (hhas x List.mem_cons_self).ne_null
            have htodo : (Trail.step blk i rest up).todo = y :: q'.todo := congrArg (List.map Prod.fst) hplan
            have hnodup' := (List.nodup_cons.1 hnodup).2
            rw [List.getLast?_cons_of_ne_nil (by rw [htodo]; simp)] at hlast
            rw [htodo] at hnodup' hlast hN
            obtain ⟨s3,hrest⟩ := ih q' y s2 (by rw [hstroll.super, hroot1, hroot]) hw2 (by rwa [hstroll.disk]) hnodup' hlast
              (fun b hb => by
                rw [← htodo] at hb
                rw [hstroll.disk]
                exact (hsame b hb).has (hhas b (List.mem_cons_of_mem _ hb)))
              (by
                rw [List.length_cons] at hN
                omega)
            refine ⟨s3,?_⟩
            rw [htodo]
            simp only [exec_bind, exec_get, Prog.Outcome.bind_done, exec_ite, hroot, if_neg hx]
            have hloop : exec (visitLoop free (N + 1) x) s1 = .done (y :: q'.todo, s3) := by
              rw [visitLoop, exec_bind, hcall, Prog.Outcome.bind_done]
              exact hrest
            rw [hfree, Prog.Outcome.bind_done, hloop]
            rfl

-- Every block is visited once, after the blocks below it, whichever of them the caller frees on the way.
theorem visits_post (hfuel : 20 ≤ FUEL) (hm : m + 1 ≤ 20) {t : BlockTree (m + 1)} (ht : PlantedRoot s.disk t)
    (hroot : s.ctx.super.scroot = t.label) (hnodup : t.post.Nodup) (free : Int → Bool) (hN : t.post.length ≤ N) :
    (∃ s', exec (visitLoop free N ZNULL) s = .done (t.post, s')) ∧ t.post.getLast? = some t.label ∧
      ∀ a b, t.Child a b → [b, a].Sublist t.post := by
  refine ⟨?_,t.post_getLast,fun a b => t.child_before⟩
  obtain ⟨k,q,x,s1,hcall,hstroll,hw,hq,hplan⟩ := exec_bnxtbk_first hm hfuel ht hroot
  have htodo : t.post = x :: q.todo := (t.map_postAt 0).symm.trans (congrArg (List.map Prod.fst) hplan)
  have hlast := t.post_getLast
  have hhas : ∀ b ∈ t.post, s.disk.Has b := fun b hb => (ht.at_post hb).1
  rw [htodo] at hnodup hlast hhas hN ⊢
  obtain ⟨N,rfl⟩ : ∃ N', N = N' + 1 := ⟨N - 1,by rw [List.length_cons] at hN; omega⟩
  obtain ⟨s2,hrest⟩ := exec_visitLoop_rest hm hfuel free N q x s1 (by rw [hstroll.super, hroot]) hw
    (by rwa [hstroll.disk]) hnodup hlast (by rwa [hstroll.disk]) (by rw [List.length_cons] at hN; omega)
  refine ⟨s2,?_⟩
  rw [visitLoop, exec_bind, hcall, Prog.Outcome.bind_done]
  exact hrest

-- The blocks of a tree of keys.
def blocks : {n : Nat} → KeyTree (n + 1) → BlockTree (n + 1)
  | 0, t => node (Multiway.Node.id t) []
  | _ + 1, t => node (Multiway.Node.id t) ((Multiway.Node.kids t).map blocks)

omit [Build] in
theorem label_blocks (t : KeyTree (n + 1)) : (blocks t).label = Multiway.BTree.link t := by
  cases n <;> rfl

omit [Build] in
theorem post_blocks (t : KeyTree (n + 1)) : (blocks t).post.Perm t.ids := by
  induction n with
  | zero =>
      obtain ⟨b,es,ks,rfl⟩ := t.eq_node
      have hnil : (ks.map Multiway.BTree.ids).flatten = [] := List.flatten_eq_nil_iff.2 fun l hl => by
        obtain ⟨k,-,rfl⟩ := List.mem_map.1 hl
        rfl
      rw [Multiway.BTree.ids_node, hnil]
      exact .refl _
  | succ n ih =>
      obtain ⟨b,es,ks,rfl⟩ := t.eq_node
      change (((ks.map blocks).map post).flatten ++ [b]).Perm (b :: (ks.map Multiway.BTree.ids).flatten)
      refine (List.perm_append_singleton b _).trans (List.Perm.cons b ?_)
      rw [List.map_map]
      induction ks with
      | nil => exact .refl _
      | cons k ks ihk => exact (ih k).append ihk

theorem planted_blocks {d : Disk} (t : KeyTree (n + 1)) (h : Holds d.block t) (hwf : t.Wf ZMXKEY 1)
    (hhas : ∀ b ∈ t.ids, d.Has b) : Planted d (blocks t) := by
  induction n with
  | zero =>
      obtain ⟨b,es,ks,rfl⟩ := t.eq_node
      obtain ⟨hlow,-,hlen,-⟩ := Multiway.BTree.wf_node.1 hwf
      obtain ⟨hshow,-⟩ := holds_node.1 h
      have hne : es ≠ [] := List.length_pos_iff.1 hlow
      obtain ⟨k,ks,rfl⟩ := List.exists_cons_of_length_eq_add_one hlen
      have hlinks := hshow.links
      rw [nodeLinks_of_ne hne] at hlinks
      exact planted_node.2 ⟨hhas b (by simp [Multiway.BTree.ids_node]),hshow.nkeys ▸ Int.natCast_nonneg _,
        fun _ => hlinks.1,fun hc => absurd rfl hc,fun k hk => absurd hk List.not_mem_nil⟩
  | succ n ih =>
      obtain ⟨b,es,ks,rfl⟩ := t.eq_node
      obtain ⟨hlow,-,hlen,hks⟩ := Multiway.BTree.wf_node.1 hwf
      obtain ⟨hshow,hkids⟩ := holds_node.1 h
      have hlinks := hshow.links
      rw [nodeLinks_succ] at hlinks
      rw [Multiway.BTree.ids_node] at hhas
      have hkeys : (d.block b).nkeys + 1 = ((ks.map blocks).length : Int) := by
        rw [hshow.nkeys, List.length_map, hlen]
        push_cast
        rfl
      have hlabels : Reads (d.block b).lnkblk 0 ((ks.map blocks).map label) := by
        have hfun : (label ∘ blocks : KeyTree (n + 1) → Int) = Multiway.BTree.link := funext label_blocks
        rwa [List.map_map, hfun]
      refine planted_node.2 ⟨hhas b List.mem_cons_self,hshow.nkeys ▸ Int.natCast_nonneg _,fun hnil => ?_,
        fun _ => ⟨hkeys,hlabels⟩,fun k hk => ?_⟩
      · have hnil' : ks = [] := List.map_eq_nil_iff.1 hnil
        rw [hnil'] at hlen
        simp at hlen
      · obtain ⟨k,hmem,rfl⟩ := List.mem_map.1 hk
        have hk : k ∈ ks := hmem
        exact ih k (hkids k hk) (hks k hk) fun b hb =>
          hhas b (List.mem_cons_of_mem _ (List.mem_flatten.2 ⟨_,List.mem_map_of_mem hk,hb⟩))

-- The blocks of an index are linked as the walk needs them.
theorem plantedRoot_blocks {t : KeyTree (n + 1)} {fs os : List Int} (h : Index s t fs os) (hwf : t.RootWf ZMXKEY) :
    PlantedRoot s.disk (blocks t) ∧ (blocks t).post.Nodup := by
  refine ⟨?_,(post_blocks t).nodup_iff.2 h.nodup⟩
  obtain ⟨b,es,ks,rfl⟩ := t.eq_node
  obtain ⟨hlow,-,hlen,hks⟩ := Multiway.BTree.wf_node.1 hwf
  obtain ⟨hshow,hkids⟩ := holds_node.1 h.holds
  have hb : s.disk.Has b := h.has (by simp [Multiway.BTree.ids_node])
  have h0 : 0 ≤ (s.disk.block b).nkeys := hshow.nkeys ▸ Int.natCast_nonneg _
  have hlinks := hshow.links
  cases n with
  | zero =>
      refine ⟨hb,fun _ => ⟨h0,?_⟩,fun hc => absurd rfl hc,fun k hk => absurd hk List.not_mem_nil⟩
      rcases eq_or_ne es [] with rfl | hne
      · exact Or.inl hshow.nkeys
      · obtain ⟨k,ks,rfl⟩ := List.exists_cons_of_length_eq_add_one hlen
        rw [nodeLinks_of_ne hne] at hlinks
        exact Or.inr hlinks.1
  | succ n =>
      have hes : 1 ≤ es.length := by simpa [Multiway.Path.floor] using hlow
      rw [nodeLinks_succ] at hlinks
      have hkeys : (s.disk.block b).nkeys + 1 = ((ks.map blocks).length : Int) := by
        rw [hshow.nkeys, List.length_map, hlen]
        push_cast
        rfl
      have hlabels : Reads (s.disk.block b).lnkblk 0 ((ks.map blocks).map label) := by
        have hfun : (label ∘ blocks : KeyTree (n + 1) → Int) = Multiway.BTree.link := funext label_blocks
        rwa [List.map_map, hfun]
      have hpos : 0 < (s.disk.block b).nkeys := by
        rw [hshow.nkeys]
        omega
      refine ⟨hb,fun hnil => ?_,fun _ => ⟨hpos,hkeys,hlabels⟩,fun k hk => ?_⟩
      · have hnil' : ks = [] := List.map_eq_nil_iff.1 hnil
        rw [hnil'] at hlen
        simp at hlen
      · obtain ⟨k,hmem,rfl⟩ := List.mem_map.1 hk
        have hk : k ∈ ks := hmem
        refine planted_blocks k (hkids k hk) (hks k hk) fun c hc => h.has ?_
        rw [Multiway.BTree.ids_node]
        exact List.mem_cons_of_mem _ (List.mem_flatten.2 ⟨_,List.mem_map_of_mem hk,hc⟩)

end Visits

section Run

attribute [local instance] smallBuild

theorem visits_post_three :
    (∃ s', exec (visitLoop (fun _ => true) 3 ZNULL) threeBlocks = .done ([2,3,1], s')) ∧
      ([2,3,1] : List Int).getLast? = some 1 := by
  obtain ⟨hvisit,hlast,-⟩ := visits_post (by decide) (by decide) planted_three rfl (by decide) (fun _ => true) (N := 3)
    (by decide)
  exact ⟨hvisit,hlast⟩

end Run

end Btlib
