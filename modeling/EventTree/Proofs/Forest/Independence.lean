import EventTree.Proofs.Fence
import EventTree.Proofs.Forest.Histories
import EventTree.Proofs.Forest.Snapshots

/-!
# Independent copies

An operation that is given nodes inside a fence is work inside the fence, and so are any operations one
after the other. A copy is fenced off from what was there before, and what was there before is fenced off
from the copy. Main statement: a copy is made of new nodes and shows what its original shows, and whatever
is done to the one of them is not seen in the other.
-/

namespace EventTree

/-- The operations are given nodes of a kind only, in values too. -/
def Operation.OnlyOn (inside : NodeId → Prop) (ops : List Operation) : Prop :=
  ∀ op ∈ ops, ∀ n ∈ op.nodes, inside n

instance (inside : NodeId → Prop) [DecidablePred inside] (ops : List Operation) :
    Decidable (Operation.OnlyOn inside ops) :=
  inferInstanceAs (Decidable (∀ op ∈ ops, ∀ n ∈ op.nodes, inside n))

namespace Fenced

variable {owned : NodeId → Prop} {f : Forest} (hf : Fenced owned f)

include hf

/-! ## One operation -/

theorem insert {p c : NodeId} {position : Option Nat} (hp : owned p) (hc : owned c) (hhp : f.Has p)
    (hhc : f.Has c) {g : Forest} (h : f.insert p position c = .ok g) : Tilled owned f g := by
  obtain ⟨hfault, rfl⟩ := Forest.insert_eq_ok h
  exact hf.moveTo hp hc hhp hhc hfault

theorem replace {n other : NodeId} (hn : owned n) (ho : owned other) (hho : f.Has other) {g : Forest}
    (h : f.replace n other = .ok g) : Tilled owned f g := by
  rcases hf.wellFormed.replace_eq_ok h with ⟨-, rfl⟩ | ⟨p, hp, hne, hna, rfl⟩
  · exact .refl hf
  · exact hf.exchange hn ho hho hp hne hna

section New

variable {v : Option LiveValue} (hv : ∀ m, v = some (.node m) → owned m ∧ f.Has m) (a : String)

include hv

theorem createWith : Tilled owned f ((f.create a).2.setValue ⟨f.size⟩ v) := by
  have hnew := hf.create a
  refine hnew.trans (hnew.fenced.setValue (hf.unborn _ (Nat.lt_irrefl _)) fun m hm => ?_)
  exact ⟨(hv m hm).1, Nat.lt_of_lt_of_le (hv m hm).2 hnew.size_le⟩

theorem addChild {n : NodeId} (hn : owned n) (hhn : f.Has n) :
    Tilled owned f (f.addChild n a v).2 := by
  have hnew := hf.createWith hv a
  exact hnew.trans (hnew.fenced.append (hf.wellFormed.attachable_created hhn a) hn
    (hf.unborn _ (Nat.lt_irrefl _)))

end New

theorem after {op : Operation} (hhas : ∀ n ∈ op.nodes, f.Has n) (hown : ∀ n ∈ op.nodes, owned n) :
    Tilled owned f (op.after f) := by
  have hinside : ∀ n ∈ op.nodes, owned n ∧ f.Has n := fun n hn => ⟨hown n hn, hhas n hn⟩
  apply Forest.after_of_apply (P := Tilled owned f) (.refl hf)
  intro g hg
  cases op with
  | new name => cases hg; exact hf.create name
  | withValue name value => cases hg; exact hf.createWith (Value.of_mem_nodes hinside) name
  | withChild n child =>
    cases hg
    cases hi : f.insert n none child with
    | error cause => exact .refl hf
    | ok g =>
      exact hf.insert (hown n (by simp [Operation.nodes])) (hown child (by simp [Operation.nodes]))
        (hhas n (by simp [Operation.nodes])) (hhas child (by simp [Operation.nodes])) hi
  | add n child | insert n position child =>
    exact hf.insert (hown n (by simp [Operation.nodes])) (hown child (by simp [Operation.nodes]))
      (hhas n (by simp [Operation.nodes])) (hhas child (by simp [Operation.nodes])) hg
  | addChild n name =>
    cases hg
    exact hf.addChild (by rintro m ⟨⟩) name (hown n (by simp [Operation.nodes]))
      (hhas n (by simp [Operation.nodes]))
  | addValueChild n name value =>
    cases hg
    exact hf.addChild (Value.of_mem_nodes fun m hm => hinside m (List.mem_cons_of_mem _ hm)) name
      (hown n (by simp [Operation.nodes])) (hhas n (by simp [Operation.nodes]))
  | untie n =>
    rw [Forest.untie_eq_ok hg]
    exact hf.detach (hown n (by simp [Operation.nodes]))
  | replace n other =>
    exact hf.replace (hown n (by simp [Operation.nodes])) (hown other (by simp [Operation.nodes]))
      (hhas other (by simp [Operation.nodes])) hg
  | clear n => cases hg; exact hf.clear (hown n (by simp [Operation.nodes]))
  | deepClone n =>
    cases hg
    exact hf.grow (Forest.copied hf.wellFormed n).grown (Forest.copied hf.wellFormed n).wellFormed
  | setName n name => cases hg; exact hf.setName (hown n (by simp [Operation.nodes])) name
  | setValue n value | replaceValue n value =>
    cases hg
    exact hf.setValue (hown n (by simp [Operation.nodes]))
      (Value.of_mem_nodes fun m hm => hinside m (List.mem_cons_of_mem _ hm))
  | takeValue n | clearValue n =>
    cases hg
    exact hf.setValue (hown n (by simp [Operation.nodes])) (by rintro m ⟨⟩)

/-! ## All operations -/

theorem perform {ops : List Operation} (h : f.Performable ops) (hown : Operation.OnlyOn owned ops) :
    Tilled owned f (f.perform ops) := by
  induction ops generalizing f with
  | nil => exact .refl hf
  | cons op ops ih =>
    have hstep := hf.after h.1 (hown op List.mem_cons_self)
    exact hstep.trans (ih hstep.fenced h.2 fun o ho => hown o (List.mem_cons_of_mem _ ho))

end Fenced

theorem Tilled.snapshot_eq {owned : NodeId → Prop} {f g : Forest} (h : Tilled owned f g)
    (wf : f.WellFormed) {n : NodeId} (hn : f.Has n) (hfinite : f.IsFinite n)
    (hout : ∀ m, f.InTree n m → ¬ owned m) : g.snapshot n = f.snapshot n :=
  (hfinite.apart hout).snapshot_eq wf hn (fun m _ hm => h.outside m hm) h.size_le

/-! ## The main statement -/

namespace Forest

/-- A copy is new and like its original. What is done to its nodes and to later ones does not show in the
original, and what is done to the nodes that were there before and to later ones does not show in the
copy. -/
theorem copy_independent {f : Forest} (wf : f.WellFormed) {n : NodeId} (hn : f.Has n)
    (hfinite : f.IsFinite n) :
    f.Revived (f.snapshot n) (f.copy n).1 (f.copy n).2 ∧
    ∀ ops, (f.copy n).2.Performable ops →
      (Operation.OnlyOn (fun m => ¬ f.Has m) ops →
        ((f.copy n).2.perform ops).snapshot n = f.snapshot n) ∧
      (Operation.OnlyOn (fun m => f.Has m ∨ ¬ (f.copy n).2.Has m) ops →
        ((f.copy n).2.perform ops).snapshot (f.copy n).1 = f.snapshot n) := by
  have hcopied := copied wf n
  have hrevived : f.Revived (f.snapshot n) (f.copy n).1 (f.copy n).2 := revived_plant wf (f.view n)
  have wg := hrevived.wellFormed
  refine ⟨hrevived, fun ops hops => ⟨fun honly => ?_, fun honly => ?_⟩⟩
  · have hgrown := (fenced_apart wf wf (.refl f)).grow hcopied.grown wg
    have hwork := hgrown.trans (hgrown.fenced.perform hops honly)
    exact hwork.snapshot_eq wf hn hfinite fun m hm hnew => hnew (wf.has_reached hn hm)
  · have hwork := (fenced_around wf wg hcopied.grown).perform hops honly
    rw [hwork.snapshot_eq wg hrevived.has hrevived.finite fun m hm hin => ?_, hrevived.snapshot]
    exact hin.elim (hrevived.new m hm) fun h => h (wg.has_reached hrevived.has hm)

/-- The nested tree of the copy is changed, put elsewhere and let go, or the same is done to that of the
original. -/
theorem copy_independent_of_almanac :
    let f := (plant almanac .empty).2
    let g := (f.copy ⟨0⟩).2
    let onCopy : List Operation := [.setName ⟨4⟩ "draft", .addChild ⟨4⟩ "note", .add ⟨6⟩ ⟨5⟩,
      .setValue ⟨6⟩ (.node ⟨4⟩), .clearValue ⟨3⟩]
    let onOriginal : List Operation := [.setName ⟨1⟩ "draft", .addChild ⟨1⟩ "note", .add ⟨6⟩ ⟨2⟩,
      .setValue ⟨6⟩ (.node ⟨1⟩), .clearValue ⟨0⟩]
    (f.WellFormed ∧ f.Has ⟨0⟩ ∧ f.IsFinite ⟨0⟩) ∧
    (g.snapshot (f.copy ⟨0⟩).1 = almanac.snapshot ∧ ∀ m, g.InTree (f.copy ⟨0⟩).1 m → ¬ f.Has m) ∧
    (g.Performable onCopy ∧ Operation.OnlyOn (fun m => ¬ f.Has m) onCopy ∧
      (g.perform onCopy).name ⟨4⟩ = "draft" ∧
      (g.perform onCopy).snapshot ⟨0⟩ = almanac.snapshot) ∧
    g.Performable onOriginal ∧ Operation.OnlyOn (fun m => f.Has m ∨ ¬ g.Has m) onOriginal ∧
      (g.perform onOriginal).name ⟨1⟩ = "draft" ∧
      (g.perform onOriginal).snapshot (f.copy ⟨0⟩).1 = almanac.snapshot := by
  intro f g onCopy onOriginal
  have hplanted := revived_plant wellFormed_empty almanac
  have hhas : f.Has ⟨0⟩ := by decide
  have hsnapshot : f.snapshot ⟨0⟩ = almanac.snapshot := hplanted.snapshot
  obtain ⟨hrevived, hlater⟩ := copy_independent hplanted.wellFormed hhas hplanted.finite
  have hcopy : g.Performable onCopy ∧ Operation.OnlyOn (fun m => ¬ f.Has m) onCopy ∧
      (g.perform onCopy).name ⟨4⟩ = "draft" := by decide
  have horiginal : g.Performable onOriginal ∧
      Operation.OnlyOn (fun m => f.Has m ∨ ¬ g.Has m) onOriginal ∧
      (g.perform onOriginal).name ⟨1⟩ = "draft" := by decide
  refine ⟨⟨hplanted.wellFormed, hhas, hplanted.finite⟩, ⟨?_, hrevived.new⟩,
    ⟨hcopy.1, hcopy.2.1, hcopy.2.2, ?_⟩, horiginal.1, horiginal.2.1, horiginal.2.2, ?_⟩
  · exact hrevived.snapshot.trans hsnapshot
  · exact ((hlater onCopy hcopy.1).1 hcopy.2.1).trans hsnapshot
  · exact ((hlater onOriginal horiginal.1).2 horiginal.2.1).trans hsnapshot

end Forest

end EventTree
