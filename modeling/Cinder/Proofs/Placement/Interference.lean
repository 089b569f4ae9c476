import Cinder.Placement.Interference
import Cinder.Proofs.Flow.Liveness
import Mathlib.Data.List.Induction
import Mathlib.Logic.Relation

/-!
# Interference of live variables

The graph says of two variables that they interfere only where one of them is
written.  Variables that are live together do interfere nevertheless: on a path from
the entry there is a last place where one of them is written while the other one is
live, and where there is none, both are live on entry.
-/

namespace Cinder

open Cinder.Flow

namespace Interference

variable {g g' g'' : Interference} {a b u v : Variable}

def Clash (g : Interference) (a b : Variable) : Prop :=
  b ∈ g.neighbors a ∧ a ∈ g.neighbors b

theorem Clash.symm (h : g.Clash a b) : g.Clash b a :=
  And.symm h

/-- All of a graph is found in another one. -/
structure Covers (g g' : Interference) : Prop where
  nodes : ∀ {v}, v ∈ g.nodes → v ∈ g'.nodes
  neighbors : ∀ {u v}, v ∈ g.neighbors u → v ∈ g'.neighbors u

theorem Covers.refl (g : Interference) : g.Covers g :=
  ⟨id, id⟩

theorem Covers.trans (h : g.Covers g') (h' : g'.Covers g'') : g.Covers g'' :=
  ⟨fun hv => h'.nodes (h.nodes hv), fun hv => h'.neighbors (h.neighbors hv)⟩

theorem Covers.clash (h : g.Covers g') (hclash : g.Clash a b) : g'.Clash a b :=
  ⟨h.neighbors hclash.1, h.neighbors hclash.2⟩

/-! ## Adding nodes -/

@[simp] theorem mem_nodes_addNode : v ∈ (g.addNode a).nodes ↔ v = a ∨ v ∈ g.nodes := by
  simp only [nodes, addNode, Std.ExtTreeMap.mem_keys, Std.ExtTreeMap.mem_insertIfNew,
    Std.LawfulEqCmp.compare_eq_iff_eq, @eq_comm _ a v]

@[simp] theorem neighbors_addNode : (g.addNode a).neighbors u = g.neighbors u := by
  simp only [neighbors, addNode, Std.ExtTreeMap.getD_insertIfNew,
    Std.LawfulEqCmp.compare_eq_iff_eq]
  split
  · rename_i h
    rw [Std.ExtTreeMap.getD_eq_fallback]
    rw [← h.1]
    exact h.2
  · rfl

theorem covers_addNode : g.Covers (g.addNode a) :=
  ⟨fun hv => mem_nodes_addNode.2 (.inr hv), fun hv => by rwa [neighbors_addNode]⟩

@[simp] theorem mem_nodes_addNodes {vs : List Variable} :
    v ∈ (g.addNodes vs).nodes ↔ v ∈ vs ∨ v ∈ g.nodes := by
  induction vs generalizing g with
  | nil => simp [addNodes]
  | cons a vs ih =>
    refine (ih (g := g.addNode a)).trans ?_
    rw [mem_nodes_addNode, List.mem_cons, or_left_comm, or_assoc]

theorem covers_addNodes (vs : List Variable) : g.Covers (g.addNodes vs) := by
  induction vs generalizing g with
  | nil => exact .refl g
  | cons a vs ih => exact covers_addNode.trans ih

/-! ## Adding edges -/

theorem mem_nodes_link : v ∈ (g.link a b).nodes ↔ v = a ∨ v ∈ g.nodes := by
  simp only [nodes, link, Std.ExtTreeMap.mem_keys, Std.ExtTreeMap.mem_insert,
    Std.LawfulEqCmp.compare_eq_iff_eq, @eq_comm _ a v]

theorem covers_link : g.Covers (g.link a b) :=
  ⟨fun hv => mem_nodes_link.2 (.inr hv), fun hv => mem_neighbors_link.2 (.inr hv)⟩

theorem mem_nodes_addEdge (h : v ∈ (g.addEdge a b).nodes) : v = a ∨ v = b ∨ v ∈ g.nodes := by
  unfold addEdge at h
  split at h
  · exact .inr (.inr h)
  · rcases mem_nodes_link.1 h with h | h
    · exact .inr (.inl h)
    · exact (mem_nodes_link.1 h).imp id .inr

theorem covers_addEdge : g.Covers (g.addEdge a b) := by
  unfold addEdge
  split
  · exact .refl g
  · exact covers_link.trans covers_link

theorem clash_addEdge (h : a ≠ b) : (g.addEdge a b).Clash a b := by
  rw [addEdge, if_neg h]
  exact ⟨covers_link.neighbors (mem_neighbors_link.2 (.inl ⟨rfl, rfl⟩)),
    mem_neighbors_link.2 (.inl ⟨rfl, rfl⟩)⟩

theorem addEdges_cons (bs : List Variable) :
    g.addEdges a (b :: bs) = (g.addEdge a b).addEdges a bs :=
  rfl

theorem mem_nodes_addEdges {bs : List Variable} (h : v ∈ (g.addEdges a bs).nodes) :
    v = a ∨ v ∈ bs ∨ v ∈ g.nodes := by
  induction bs generalizing g with
  | nil => exact .inr (.inr h)
  | cons b bs ih =>
    rw [addEdges_cons] at h
    rcases ih h with h | h | h
    · exact .inl h
    · exact .inr (.inl (List.mem_cons_of_mem _ h))
    · rcases mem_nodes_addEdge h with h | rfl | h
      · exact .inl h
      · exact .inr (.inl List.mem_cons_self)
      · exact .inr (.inr h)

theorem covers_addEdges (bs : List Variable) : g.Covers (g.addEdges a bs) := by
  induction bs generalizing g with
  | nil => exact .refl g
  | cons b bs ih => exact covers_addEdge.trans ih

theorem clash_addEdges {bs : List Variable} (hb : b ∈ bs) (h : a ≠ b) :
    (g.addEdges a bs).Clash a b := by
  induction bs generalizing g with
  | nil => cases hb
  | cons c bs ih =>
    rw [addEdges_cons]
    rcases List.mem_cons.1 hb with rfl | hb
    · exact (covers_addEdges bs).clash (clash_addEdge h)
    · exact ih hb

theorem mem_nodes_addClique {l : List Variable} (h : v ∈ (g.addClique l).nodes) :
    v ∈ l ∨ v ∈ g.nodes := by
  induction l generalizing g with
  | nil => exact .inr h
  | cons a l ih =>
    rcases ih h with h | h
    · exact .inl (List.mem_cons_of_mem _ h)
    · rcases mem_nodes_addEdges h with rfl | h | h
      · exact .inl List.mem_cons_self
      · exact .inl (List.mem_cons_of_mem _ h)
      · exact .inr h

theorem covers_addClique (l : List Variable) : g.Covers (g.addClique l) := by
  induction l generalizing g with
  | nil => exact .refl g
  | cons a l ih => exact (covers_addEdges l).trans ih

theorem clash_addClique {l : List Variable} (ha : a ∈ l) (hb : b ∈ l) (h : a ≠ b) :
    (g.addClique l).Clash a b := by
  induction l generalizing g with
  | nil => cases ha
  | cons c l ih =>
    rcases List.mem_cons.1 ha with rfl | hal
    · have hbl := List.mem_of_ne_of_mem h.symm hb
      exact (covers_addClique l).clash (clash_addEdges hbl h)
    · rcases List.mem_cons.1 hb with rfl | hbl
      · exact (covers_addClique l).clash (clash_addEdges hal h.symm).symm
      · exact ih hal hbl

/-! ## Adding points -/

variable {i : Instruction} {point : Point VariableSet}

theorem covers_addPoint (i : Instruction) (point : Point VariableSet) :
    g.Covers (g.addPoint i point) := by
  have hbefore := (covers_addNodes i.uses).trans (covers_addNodes (g := g.addNodes i.uses)
    point.before.toList)
  unfold addPoint
  cases i.definition with
  | none => exact hbefore
  | some d => exact hbefore.trans (covers_addNode.trans (covers_addEdges _))

theorem mem_nodes_addBefore : v ∈ ((g.addNodes i.uses).addNodes point.before.toList).nodes ↔
    v ∈ g.nodes ∨ v ∈ i.uses ∨ v ∈ point.before := by
  rw [mem_nodes_addNodes, mem_nodes_addNodes, Std.ExtTreeSet.mem_toList, or_comm,
    @or_comm (v ∈ i.uses), or_assoc]

theorem mem_nodes_addPoint (h : v ∈ (g.addPoint i point).nodes) :
    v ∈ g.nodes ∨ v ∈ i.uses ∨ v ∈ point.before ∨ i.definition = some v ∨ v ∈ point.after := by
  unfold addPoint at h
  cases hd : i.definition with
  | none =>
    rw [hd] at h
    exact (mem_nodes_addBefore.1 h).imp_right (.imp_right .inl)
  | some d =>
    rw [hd] at h
    rcases mem_nodes_addEdges h with rfl | h | h
    · exact .inr (.inr (.inr (.inl rfl)))
    · exact .inr (.inr (.inr (.inr (Std.ExtTreeSet.mem_toList.1 h))))
    · rcases mem_nodes_addNode.1 h with rfl | h
      · exact .inr (.inr (.inr (.inl rfl)))
      · exact (mem_nodes_addBefore.1 h).imp_right (.imp_right .inl)

theorem mem_nodes_addPoint_of_mem (h : v ∈ i.uses ∨ v ∈ point.before ∨ i.definition = some v) :
    v ∈ (g.addPoint i point).nodes := by
  unfold addPoint
  cases hd : i.definition with
  | none =>
    rw [hd, or_iff_left (Option.some_ne_none v).symm] at h
    exact mem_nodes_addBefore.2 (.inr h)
  | some d =>
    refine (covers_addEdges _).nodes (mem_nodes_addNode.2 ?_)
    rcases h with h | h | h
    · exact .inr (mem_nodes_addBefore.2 (.inr (.inl h)))
    · exact .inr (mem_nodes_addBefore.2 (.inr (.inr h)))
    · exact .inl (Option.some.inj (h.symm.trans hd))

/-- What an instruction writes interferes with what is live behind it. -/
theorem clash_addPoint {d : Variable} (hd : i.definition = some d) (hv : v ∈ point.after)
    (hne : d ≠ v) : (g.addPoint i point).Clash d v := by
  unfold addPoint
  rw [hd]
  exact clash_addEdges (Std.ExtTreeSet.mem_toList.2 hv) hne

def addPoints (g : Interference) (points : List (Instruction × Point VariableSet)) :
    Interference :=
  points.foldl (fun g (i, point) => g.addPoint i point) g

variable {points : List (Instruction × Point VariableSet)}

theorem covers_addPoints (points : List (Instruction × Point VariableSet)) :
    g.Covers (g.addPoints points) := by
  induction points generalizing g with
  | nil => exact .refl g
  | cons p points ih => exact (covers_addPoint p.1 p.2).trans ih

theorem exists_covers_addPoints (h : (i, point) ∈ points) (g : Interference) :
    ∃ g' : Interference, (g'.addPoint i point).Covers (g.addPoints points) := by
  induction points generalizing g with
  | nil => cases h
  | cons p points ih =>
    rcases List.mem_cons.1 h with rfl | h
    · exact ⟨g, covers_addPoints points⟩
    · exact ih h _

theorem mem_nodes_addPoints (h : v ∈ (g.addPoints points).nodes) :
    v ∈ g.nodes ∨ ∃ i point, (i, point) ∈ points ∧
      (v ∈ i.uses ∨ v ∈ point.before ∨ i.definition = some v ∨ v ∈ point.after) := by
  induction points generalizing g with
  | nil => exact .inl h
  | cons p points ih =>
    rcases ih h with h | ⟨i, point, hmem, h⟩
    · exact (mem_nodes_addPoint h).imp id fun h => ⟨p.1, p.2, List.mem_cons_self, h⟩
    · exact .inr ⟨i, point, List.mem_cons_of_mem _ hmem, h⟩

/-! ## The graph of a function -/

/-- The instructions of a block, each with what is live around it. -/
def annotated (f : Function) (live : Arena (List (Point VariableSet))) (id : BlockId) :
    List (Instruction × Point VariableSet) :=
  (f.instructionsOf id).zip ((live.get? id).getD [])

structure Records (g : Interference) (f : Function) (live : Arena (List (Point VariableSet))) :
    Prop where
  parameters : ∀ {v}, v ∈ f.parameters → v ∈ g.nodes
  around : ∀ {id i point v}, id ∈ f.preorder → (i, point) ∈ annotated f live id →
    v ∈ i.uses ∨ v ∈ point.before ∨ i.definition = some v → v ∈ g.nodes
  written : ∀ {id i point d v}, id ∈ f.preorder → (i, point) ∈ annotated f live id →
    i.definition = some d → v ∈ point.after → d ≠ v → g.Clash d v
  entry : ∀ {first u v}, first ∈ ((live.get? f.entry).getD []).head? → u ∈ first.before →
    v ∈ first.before → u ≠ v → g.Clash u v
  only : ∀ {v}, v ∈ g.nodes → v ∈ f.parameters ∨
    (∃ id ∈ f.preorder, ∃ i point, (i, point) ∈ annotated f live id ∧
      (v ∈ i.uses ∨ v ∈ point.before ∨ i.definition = some v ∨ v ∈ point.after)) ∨
    ∃ first ∈ ((live.get? f.entry).getD []).head?, v ∈ first.before

/-- The graph before the variables that are live on entry are connected. -/
def inner (f : Function) (live : Arena (List (Point VariableSet))) : Interference :=
  (addNodes {} f.parameters).addPoints (f.preorder.flatMap (annotated f live))

variable {f : Function} {live : Arena (List (Point VariableSet))}

theorem mem_nodes_inner (h : v ∈ (inner f live).nodes) : v ∈ f.parameters ∨
    ∃ id ∈ f.preorder, ∃ i point, (i, point) ∈ annotated f live id ∧
      (v ∈ i.uses ∨ v ∈ point.before ∨ i.definition = some v ∨ v ∈ point.after) := by
  rcases mem_nodes_addPoints h with h | ⟨i, point, hmem, h⟩
  · rcases mem_nodes_addNodes.1 h with h | h
    · exact .inl h
    · simp [nodes] at h
  · obtain ⟨id, hid, hmem⟩ := List.mem_flatMap.1 hmem
    exact .inr ⟨id, hid, i, point, hmem, h⟩

theorem ofLiveness_eq (he : f.Enclosed) : ofLiveness f live = .ok
    (match (live.get? f.entry).getD [] with
      | [] => inner f live
      | first :: _ => (inner f live).addClique first.before.toList) := by
  rw [ofLiveness, he.order, bind_ok]
  rfl

theorem exists_ofLiveness (he : f.Enclosed) (live : Arena (List (Point VariableSet))) :
    ∃ g, ofLiveness f live = .ok g ∧ g.Records f live := by
  refine ⟨_, ofLiveness_eq he, ?_⟩
  have hcovers : (inner f live).Covers (match (live.get? f.entry).getD [] with
      | [] => inner f live
      | first :: _ => (inner f live).addClique first.before.toList) := by
    split
    · exact .refl _
    · exact covers_addClique _
  constructor
  · intro v hv
    exact hcovers.nodes ((covers_addPoints _).nodes (mem_nodes_addNodes.2 (.inl hv)))
  · intro id i point v hid hmem hv
    obtain ⟨g', hg'⟩ := exists_covers_addPoints (List.mem_flatMap.2 ⟨id, hid, hmem⟩)
      (addNodes {} f.parameters)
    exact hcovers.nodes (hg'.nodes (mem_nodes_addPoint_of_mem hv))
  · intro id i point d v hid hmem hd hv hne
    obtain ⟨g', hg'⟩ := exists_covers_addPoints (List.mem_flatMap.2 ⟨id, hid, hmem⟩)
      (addNodes {} f.parameters)
    exact hcovers.clash (hg'.clash (clash_addPoint hd hv hne))
  · intro first u v hfirst hu hv hne
    obtain ⟨rest, hrest⟩ := List.head?_eq_some_iff.1 hfirst
    rw [hrest]
    exact clash_addClique (Std.ExtTreeSet.mem_toList.2 hu) (Std.ExtTreeSet.mem_toList.2 hv) hne
  · intro v hv
    cases hentry : (live.get? f.entry).getD [] with
    | nil =>
      rw [hentry] at hv
      exact (mem_nodes_inner hv).imp id .inl
    | cons first rest =>
      rw [hentry] at hv
      rcases mem_nodes_addClique hv with hv | hv
      · exact .inr (.inr ⟨first, rfl, Std.ExtTreeSet.mem_toList.1 hv⟩)
      · exact (mem_nodes_inner hv).imp id .inl

/-! ## Variables that are live together -/

def Clique (g : Interference) (s : VariableSet) : Prop :=
  ∀ u ∈ s, ∀ v ∈ s, u ≠ v → g.Clash u v

theorem Clique.subset {s t : VariableSet} (h : g.Clique t) (hst : ∀ v ∈ s, v ∈ t) : g.Clique s :=
  fun u hu v hv => h u (hst u hu) v (hst v hv)

/-- Variables that are live behind an instruction are live in front of it unless it
writes one of them. -/
theorem Clique.after {after : VariableSet} (h : g.Clique (i.live after))
    (hwritten : ∀ {d v}, i.definition = some d → v ∈ after → d ≠ v → g.Clash d v) :
    g.Clique after := by
  intro u hu v hv hne
  by_cases hdu : i.definition = some u
  · exact hwritten hdu hv hne
  · by_cases hdv : i.definition = some v
    · exact (hwritten hdv hu hne.symm).symm
    · exact h u (Instruction.mem_live.2 (.inr ⟨hu, hdu⟩)) v
        (Instruction.mem_live.2 (.inr ⟨hv, hdv⟩)) hne

/-- The first point of a block starts with what is live at the start of the block. -/
theorem before_eq_entering {entering leaving : BlockId → VariableSet}
    (hlives : f.Lives entering leaving) {id : BlockId} (hid : id ∈ f.preorder)
    (hpoints : (live.get? id).getD [] =
      f.liveness.pointsBackward (leaving id) (f.instructionsOf id))
    {first : Point VariableSet} (hfirst : first ∈ ((live.get? id).getD []).head?) :
    first.before = entering id := by
  have h := before_pointsBackward f.liveness (leaving id) (f.instructionsOf id)
  rw [← hpoints, hfirst] at h
  exact h.trans (hlives.entering_eq hid).symm

/-- The point of an instruction, from what is live behind its block. -/
theorem mem_annotated {id : BlockId} {leaving : VariableSet}
    (hpoints : (live.get? id).getD [] = f.liveness.pointsBackward leaving (f.instructionsOf id)) :
    (i, point) ∈ annotated f live id ↔ ∃ done rest, f.instructionsOf id = done ++ i :: rest ∧
      point.after = rest.foldr Instruction.live leaving ∧ point.before = i.live point.after := by
  rw [annotated, hpoints]
  exact mem_zip_pointsBackward f.liveness

namespace Records

variable (hg : g.Records f live)

include hg

/-- If the variables live at the start of a block interfere, so do those live at any
point of it. -/
theorem clique_of_append {id : BlockId} (hid : id ∈ f.preorder) {leaving : VariableSet}
    (hpoints : (live.get? id).getD [] = f.liveness.pointsBackward leaving (f.instructionsOf id))
    (hstart : g.Clique ((f.instructionsOf id).foldr Instruction.live leaving))
    {done rest : List Instruction} (hsplit : f.instructionsOf id = done ++ rest) :
    g.Clique (rest.foldr Instruction.live leaving) := by
  induction done using List.reverseRecOn generalizing rest with
  | nil =>
    rw [hsplit] at hstart
    exact hstart
  | append_singleton done i ih =>
    rw [List.append_assoc, List.singleton_append] at hsplit
    refine (ih hsplit).after fun hd hv hne => ?_
    let after := rest.foldr Instruction.live leaving
    have hmem : (i, (⟨i.live after, after⟩ : Point VariableSet)) ∈ annotated f live id :=
      (mem_annotated hpoints).2 ⟨done, rest, hsplit, rfl, rfl⟩
    exact hg.written hid hmem hd hv hne

theorem clique_entering (he : f.Enclosed) (hne : f.entry ≠ f.exit) (hexit : f.Reachable f.exit)
    (hentry : f.instructionsOf f.entry ≠ []) {entering leaving : BlockId → VariableSet}
    (hlives : f.Lives entering leaving)
    (hpoints : ∀ id ∈ f.preorder, (live.get? id).getD [] =
      f.liveness.pointsBackward (leaving id) (f.instructionsOf id))
    {id : BlockId} (hid : id ∈ f.preorder) : g.Clique (entering id) := by
  have hpath := he.reached hne hexit hid
  clear hid
  induction hpath with
  | refl =>
    have hmem := Function.entry_mem_preorder he.entry
    obtain ⟨i, rest, hsplit⟩ := List.exists_cons_of_ne_nil hentry
    obtain ⟨first, hfirst⟩ : ∃ first, first ∈ ((live.get? f.entry).getD []).head? := by
      rw [hpoints _ hmem, hsplit]
      exact ⟨_, rfl⟩
    rw [← before_eq_entering hlives hmem (hpoints _ hmem) hfirst]
    exact fun u hu v hv => hg.entry hfirst hu hv
  | @tail p n _ hstep ih =>
    obtain ⟨hp, hedge⟩ := hstep
    have hmem : p ∈ f.preorder := List.mem_append_left _ hp
    rw [hlives.entering_eq hmem] at ih
    have hleaving := hg.clique_of_append hmem (hpoints p hmem) ih (List.append_nil _).symm
    exact hleaving.subset fun v hv => (hlives.leaving_iff hmem).2 ⟨n, hedge, hv⟩

end Records

end Interference

end Cinder
