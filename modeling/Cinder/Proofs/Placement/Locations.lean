import Cinder.Placement.Allocate
import Cinder.Proofs.Placement.Coloring
import Cinder.Proofs.SymbolTable
import Mathlib.Data.List.Pairwise

/-!
# Locations of variables

Placement succeeds if all variables have types.  Every variable gets a location of
its own register file or one in memory, and variables that interfere get different
registers: parameters arrive in different ones, none of which is ever given to
another variable.
-/

namespace Cinder

open Cinder.Flow Machine

theorem mem_of_getElem?_ofList {β : Type} {l : List (Variable × β)} {v : Variable} {b : β}
    (h : (Std.ExtTreeMap.ofList l compare)[v]? = some b) : (v, b) ∈ l := by
  induction l using List.reverseRecOn with
  | nil => simp at h
  | append_singleton l p ih =>
    obtain ⟨u, c⟩ := p
    rw [Std.ExtTreeMap.ofList_eq_insertMany_empty, Std.ExtTreeMap.insertMany_append,
      Std.ExtTreeMap.insertMany_list_singleton, Std.ExtTreeMap.getElem?_insert,
      ← Std.ExtTreeMap.ofList_eq_insertMany_empty] at h
    split at h
    · rename_i huv
      cases Std.LawfulEqCmp.eq_of_compare huv
      cases h
      exact List.mem_append_right _ (List.mem_singleton_self _)
    · exact List.mem_append_left _ (ih h)

theorem mem_of_getElem?_eq_some {β : Type} {t : Std.ExtTreeMap Variable β} {v : Variable} {b : β}
    (h : t[v]? = some b) : v ∈ t :=
  Std.ExtTreeMap.mem_iff_isSome_getElem?.2 (Option.isSome_of_eq_some h)

def Location.Holds (c : ValueClass) : Location → Prop
  | .reg _ => c = .general
  | .xmm _ => c = .float
  | .stack _ => True

def Location.Among (regs : List Reg) (xmms : List Xmm) : Location → Prop
  | .reg r => r ∈ regs
  | .xmm x => x ∈ xmms
  | .stack _ => True

/-! ## Parameters -/

namespace ArgumentSlot

variable {regs : List Reg} {xmms : List Xmm} {index : Nat} {classes : List ValueClass}

theorem forall₂_assign (regs : List Reg) (xmms : List Xmm) (index : Nat)
    (classes : List ValueClass) :
    List.Forall₂ (fun c slot => slot.location.Holds c) classes
      (assign regs xmms index classes) := by
  fun_induction assign with
  | case1 => exact .nil
  | case2 regs xmms index rest r ih => exact .cons rfl ih
  | case3 xmms index rest ih => exact .cons trivial ih
  | case4 regs index rest x xmms ih => exact .cons rfl ih
  | case5 regs index rest ih => exact .cons trivial ih

theorem among_of_mem_assign {slot : ArgumentSlot} (h : slot ∈ assign regs xmms index classes) :
    slot.location.Among regs xmms := by
  have hmono : ∀ {regs regs' : List Reg} {xmms xmms' : List Xmm} {location : Location},
      regs ⊆ regs' → xmms ⊆ xmms' → location.Among regs xmms → location.Among regs' xmms' := by
    intro regs regs' xmms xmms' location hregs hxmms h
    cases location with
    | reg r => exact hregs h
    | xmm x => exact hxmms h
    | stack offset => trivial
  fun_induction assign with
  | case1 => cases h
  | case2 regs xmms index rest r ih =>
    rcases List.mem_cons.1 h with rfl | h
    · exact List.mem_cons_self
    · exact hmono (List.subset_cons_self ..) (List.Subset.refl _) (ih h)
  | case3 xmms index rest ih =>
    rcases List.mem_cons.1 h with rfl | h
    · trivial
    · exact ih h
  | case4 regs index rest x xmms ih =>
    rcases List.mem_cons.1 h with rfl | h
    · exact List.mem_cons_self
    · exact hmono (List.Subset.refl _) (List.subset_cons_self ..) (ih h)
  | case5 regs index rest ih =>
    rcases List.mem_cons.1 h with rfl | h
    · trivial
    · exact ih h

theorem pairwise_assign (hregs : regs.Nodup) (hxmms : xmms.Nodup) :
    (assign regs xmms index classes).Pairwise fun a b =>
      a.location.isRegister = true → a.location ≠ b.location := by
  fun_induction assign with
  | case1 => exact .nil
  | case2 regs xmms index rest r ih =>
    obtain ⟨hr, hregs⟩ := List.nodup_cons.1 hregs
    refine .cons (fun slot hslot _ heq => ?_) (ih hregs hxmms)
    have hamong := among_of_mem_assign hslot
    rw [← heq] at hamong
    exact hr hamong
  | case3 xmms index rest ih => exact .cons (by rintro _ _ ⟨⟩) (ih hregs hxmms)
  | case4 regs index rest x xmms ih =>
    obtain ⟨hx, hxmms⟩ := List.nodup_cons.1 hxmms
    refine .cons (fun slot hslot _ heq => ?_) (ih hregs hxmms)
    have hamong := among_of_mem_assign hslot
    rw [← heq] at hamong
    exact hx hamong
  | case5 regs index rest ih => exact .cons (by rintro _ _ ⟨⟩) (ih hregs hxmms)

end ArgumentSlot

theorem Frame.keys_reserveWords {α : Type} (frame : Frame) (l : List α) :
    (frame.reserveWords l).1.map Prod.fst = l := by
  induction l generalizing frame with
  | nil => rfl
  | cons a l ih => exact congrArg (a :: ·) (ih _)

namespace Placement

variable {table : SymbolTable} {f : Function} {g : Interference}

/-- Where the parameters of a function may arrive. -/
structure Arrive (table : SymbolTable) (f : Function) (arrivals : List (Variable × Location)) :
    Prop where
  keys : arrivals.map Prod.fst = f.parameters
  holds : ∀ {v location}, (v, location) ∈ arrivals →
    ∃ ty, table.type? v.symbol = some ty ∧ location.Holds ty.valueClass
  among : ∀ {v location}, (v, location) ∈ arrivals → location.Among argumentRegs argumentXmms
  apart : arrivals.Pairwise fun a b => a.2.isRegister = true → a.2 ≠ b.2

theorem exists_parameterLocations
    (htyped : ∀ v ∈ f.parameters, ∃ ty, table.type? v.symbol = some ty) :
    ∃ arrivals, parameterLocations table f = .ok arrivals ∧ Arrive table f arrivals := by
  obtain ⟨types, htypes, hforall⟩ := exists_mapM (l := f.parameters) (g := Variable.typeIn table)
    (P := fun v ty => table.type? v.symbol = some ty) (by
      intro v hv
      obtain ⟨ty, hty⟩ := htyped v hv
      exact ⟨ty, SymbolTable.typeOf_eq_ok.2 hty, hty⟩)
  let slots := ArgumentSlot.ofClasses (types.map Ty.valueClass)
  have hslots : List.Forall₂ (fun ty slot => slot.location.Holds (Ty.valueClass ty)) types slots :=
    List.forall₂_map_left_iff.1 (ArgumentSlot.forall₂_assign ..)
  have hlength : f.parameters.length = (slots.map ArgumentSlot.location).length := by
    rw [List.length_map, hforall.length_eq, hslots.length_eq]
  refine ⟨f.parameters.zip (slots.map ArgumentSlot.location), ?_, ?_, ?_, ?_, ?_⟩
  · rw [parameterLocations, htypes, bind_ok]
    rfl
  · exact List.map_fst_zip (Nat.le_of_eq hlength)
  · intro v location hmem
    have h : List.Forall₂ (fun v location => ∃ ty, table.type? v.symbol = some ty ∧
        location.Holds ty.valueClass) f.parameters (slots.map ArgumentSlot.location) := by
      rw [List.forall₂_map_right_iff]
      exact forall₂_trans (fun hty hholds => ⟨_, hty, hholds⟩) hforall hslots
    exact List.forall₂_zip h hmem
  · intro v location hmem
    obtain ⟨slot, hslot, rfl⟩ := List.mem_map.1 (List.of_mem_zip hmem).2
    exact ArgumentSlot.among_of_mem_assign hslot
  · have hpairwise : (slots.map ArgumentSlot.location).Pairwise
        fun a b => a.isRegister = true → a ≠ b :=
      List.pairwise_map.2 (ArgumentSlot.pairwise_assign (by decide) (by decide))
    rw [← List.map_snd_zip (Nat.le_of_eq hlength.symm)] at hpairwise
    exact List.pairwise_map.1 hpairwise

/-! ## Slots of the frame -/

theorem exists_spill {frame : Frame} {vs : List Variable}
    (htyped : ∀ v ∈ vs, ∃ ty, table.type? v.symbol = some ty) :
    ∃ slots frame', spill table frame vs = .ok (slots, frame') ∧ slots.map Prod.fst = vs := by
  induction vs generalizing frame with
  | nil => exact ⟨[], frame, rfl, rfl⟩
  | cons v vs ih =>
    obtain ⟨⟨ty, hty⟩, htyped⟩ := List.forall_mem_cons.1 htyped
    obtain ⟨slots, frame', hspill, hkeys⟩ := @ih (frame.reserve ty.bytes).2 htyped
    refine ⟨(v, (frame.reserve ty.bytes).1) :: slots, frame', ?_, congrArg (v :: ·) hkeys⟩
    have htype : v.typeIn table = .ok ty := SymbolTable.typeOf_eq_ok.2 hty
    rw [spill, htype, bind_ok]
    exact bind_eq_ok.2 ⟨_, hspill, rfl⟩

/-! ## Placements -/

structure Places (p : Placement) (table : SymbolTable) (f : Function) (g : Interference) :
    Prop where
  located : ∀ {v}, v ∈ g.nodes → ∃ location, p.locations[v]? = some location
  holds : ∀ {v : Variable} {location}, p.locations[v]? = some location →
    ∃ ty, table.type? v.symbol = some ty ∧ location.Holds ty.valueClass
  apart : ∀ {u v : Variable} {location}, u ≠ v → g.Clash u v → location.isRegister = true →
    p.locations[u]? = some location → p.locations[v]? ≠ some location
  saved : ∀ {v : Variable} {x}, v ∉ f.parameters → p.locations[v]? = some (.xmm x) →
    ∃ offset, p.savedXmms.lookup x = some offset

theorem mem_ofClass {typed : List (Variable × Ty)} {c : ValueClass} {v : Variable} :
    v ∈ ofClass typed c ↔ ∃ ty, (v, ty) ∈ typed ∧ ty.valueClass = c := by
  simp [ofClass, Std.ExtTreeSet.mem_ofList]

theorem mem_colored {ρ : Type} {coloring : Coloring ρ} {v : Variable} {c : ρ} :
    (v, c) ∈ colored coloring ↔ coloring[v]? = some (some c) := by
  rw [← Std.ExtTreeMap.mem_toList_iff_getElem?_eq_some, colored, List.mem_filterMap]
  constructor
  · rintro ⟨⟨u, color⟩, hmem, hcolor⟩
    obtain ⟨c', rfl, h⟩ := Option.map_eq_some_iff.1 hcolor
    cases h
    exact hmem
  · exact fun h => ⟨_, h, rfl⟩

theorem mem_uncolored {ρ : Type} {coloring : Coloring ρ} {v : Variable} :
    v ∈ uncolored coloring ↔ coloring[v]? = some none := by
  rw [← Std.ExtTreeMap.mem_toList_iff_getElem?_eq_some, uncolored, List.mem_map]
  constructor
  · rintro ⟨⟨u, color⟩, hmem, rfl⟩
    obtain ⟨hmem, hnone⟩ := List.mem_filter.1 hmem
    rw [Option.isNone_iff_eq_none] at hnone
    cases hnone
    exact hmem
  · exact fun h => ⟨_, List.mem_filter.2 ⟨h, rfl⟩, rfl⟩

def entries (arrivals : List (Variable × Location)) (general : Coloring Reg) (float : Coloring Xmm)
    (spills : List (Variable × Int)) : List (Variable × Location) :=
  arrivals ++ (colored general).map (fun (v, r) => (v, Location.reg r))
    ++ (colored float).map (fun (v, x) => (v, Location.xmm x))
    ++ spills.map (fun (v, offset) => (v, Location.stack offset))

section

variable {arrivals : List (Variable × Location)} {general : Coloring Reg} {float : Coloring Xmm}
  {spills : List (Variable × Int)} {typed : List (Variable × Ty)} {u v : Variable}
  {location : Location}

theorem mem_entries : (v, location) ∈ entries arrivals general float spills ↔
    (v, location) ∈ arrivals ∨ (∃ r, location = .reg r ∧ general[v]? = some (some r)) ∨
      (∃ x, location = .xmm x ∧ float[v]? = some (some x)) ∨
      ∃ offset, location = .stack offset ∧ (v, offset) ∈ spills := by
  have hmap : ∀ {ρ : Type} {l : List (Variable × ρ)} {place : ρ → Location},
      (v, location) ∈ l.map (fun (u, c) => (u, place c)) ↔
        ∃ c, location = place c ∧ (v, c) ∈ l := by
    intro ρ l place
    rw [List.mem_map]
    constructor
    · rintro ⟨⟨u, c⟩, hmem, heq⟩
      cases heq
      exact ⟨c, rfl, hmem⟩
    · rintro ⟨c, rfl, hmem⟩
      exact ⟨(v, c), hmem, rfl⟩
  rw [entries, List.mem_append, List.mem_append, List.mem_append, hmap, hmap, hmap]
  simp only [mem_colored, or_assoc]

/-- The parts of a placement: the parameters, the two colorings of the other
variables, and the variables without a color. -/
structure Parts (table : SymbolTable) (f : Function) (g : Interference)
    (typed : List (Variable × Ty)) (arrivals : List (Variable × Location))
    (general : Coloring Reg) (float : Coloring Xmm) (spills : List (Variable × Int)) : Prop where
  arrive : Arrive table f arrivals
  mem_typed : ∀ {v ty}, (v, ty) ∈ typed ↔
    (v ∈ g.nodes ∧ v ∉ f.parameters) ∧ table.type? v.symbol = some ty
  regs : g.Colors allocatableRegs (ofClass typed .general) general
  xmms : g.Colors allocatableXmms (ofClass typed .float) float
  slots : spills.map Prod.fst = uncolored general ++ uncolored float

namespace Parts

variable (hp : Parts table f g typed arrivals general float spills)

include hp

theorem holds_of_mem_entries (h : (v, location) ∈ entries arrivals general float spills) :
    ∃ ty, table.type? v.symbol = some ty ∧ location.Holds ty.valueClass := by
  have hclass : ∀ {c}, v ∈ ofClass typed c →
      ∃ ty, table.type? v.symbol = some ty ∧ ty.valueClass = c := by
    intro c hmem
    obtain ⟨ty, hty, hc⟩ := mem_ofClass.1 hmem
    exact ⟨ty, (hp.mem_typed.1 hty).2, hc⟩
  rcases mem_entries.1 h with h | ⟨r, rfl, hr⟩ | ⟨x, rfl, hx⟩ | ⟨offset, rfl, hoffset⟩
  · exact hp.arrive.holds h
  · exact hclass (hp.regs.mem_iff.1 (mem_of_getElem?_eq_some hr))
  · exact hclass (hp.xmms.mem_iff.1 (mem_of_getElem?_eq_some hx))
  · have hspilled : v ∈ uncolored general ++ uncolored float :=
      hp.slots ▸ List.mem_map_of_mem hoffset
    rcases List.mem_append.1 hspilled with h | h
    · obtain ⟨ty, hty, -⟩ :=
        hclass (hp.regs.mem_iff.1 (mem_of_getElem?_eq_some (mem_uncolored.1 h)))
      exact ⟨ty, hty, trivial⟩
    · obtain ⟨ty, hty, -⟩ :=
        hclass (hp.xmms.mem_iff.1 (mem_of_getElem?_eq_some (mem_uncolored.1 h)))
      exact ⟨ty, hty, trivial⟩

theorem exists_mem_entries (hnodes : ∀ v ∈ g.nodes, ∃ ty, table.type? v.symbol = some ty)
    (hv : v ∈ g.nodes) : ∃ location, (v, location) ∈ entries arrivals general float spills := by
  have hcolored : ∀ {ρ : Type} {coloring : Coloring ρ}, v ∈ coloring →
      (∃ c, coloring[v]? = some (some c)) ∨ v ∈ uncolored coloring := by
    intro ρ coloring hmem
    rw [mem_uncolored]
    obtain ⟨color, hcolor⟩ :=
      Option.isSome_iff_exists.1 (Std.ExtTreeMap.mem_iff_isSome_getElem?.1 hmem)
    cases color with
    | none => exact .inr hcolor
    | some c => exact .inl ⟨c, hcolor⟩
  have hspilled : v ∈ uncolored general ++ uncolored float →
      ∃ location, (v, location) ∈ entries arrivals general float spills := by
    intro hmem
    rw [← hp.slots] at hmem
    obtain ⟨⟨_, offset⟩, hspill, rfl⟩ := List.mem_map.1 hmem
    exact ⟨.stack offset, mem_entries.2 (.inr (.inr (.inr ⟨offset, rfl, hspill⟩)))⟩
  by_cases hparameter : v ∈ f.parameters
  · rw [← hp.arrive.keys] at hparameter
    obtain ⟨⟨_, location⟩, hmem, rfl⟩ := List.mem_map.1 hparameter
    exact ⟨location, mem_entries.2 (.inl hmem)⟩
  · obtain ⟨ty, hty⟩ := hnodes v hv
    have hmem := hp.mem_typed.2 ⟨⟨hv, hparameter⟩, hty⟩
    cases hclass : ty.valueClass with
    | general =>
      rcases hcolored (hp.regs.mem_iff.2 (mem_ofClass.2 ⟨ty, hmem, hclass⟩)) with ⟨r, hr⟩ | h
      · exact ⟨.reg r, mem_entries.2 (.inr (.inl ⟨r, rfl, hr⟩))⟩
      · exact hspilled (List.mem_append_left _ h)
    | float =>
      rcases hcolored (hp.xmms.mem_iff.2 (mem_ofClass.2 ⟨ty, hmem, hclass⟩)) with ⟨x, hx⟩ | h
      · exact ⟨.xmm x, mem_entries.2 (.inr (.inr (.inl ⟨x, rfl, hx⟩)))⟩
      · exact hspilled (List.mem_append_right _ h)

/-- Registers of variables that are not parameters are never those of arguments. -/
theorem not_among_of_mem_entries (h : (v, location) ∈ entries arrivals general float spills)
    (hregister : location.isRegister = true) (hmem : (v, location) ∉ arrivals) :
    ¬ location.Among argumentRegs argumentXmms := by
  rcases mem_entries.1 h with h | ⟨r, rfl, hr⟩ | ⟨x, rfl, hx⟩ | ⟨offset, rfl, -⟩
  · exact absurd h hmem
  · have hr := hp.regs.mem_pool hr
    have hdisjoint : ∀ r ∈ allocatableRegs, r ∉ argumentRegs := by decide
    exact hdisjoint r hr
  · have hx := hp.xmms.mem_pool hx
    have hdisjoint : ∀ x ∈ allocatableXmms, x ∉ argumentXmms := by decide
    exact hdisjoint x hx
  · cases hregister

theorem not_mem_entries (hne : u ≠ v) (hclash : g.Clash u v)
    (hregister : location.isRegister = true)
    (hu : (u, location) ∈ entries arrivals general float spills) :
    (v, location) ∉ entries arrivals general float spills := by
  intro hv
  by_cases hua : (u, location) ∈ arrivals
  · by_cases hva : (v, location) ∈ arrivals
    · have hpair : (u, location) ≠ (v, location) := fun h => hne (congrArg Prod.fst h)
      have : Std.Symm fun a b : Variable × Location => a.2.isRegister = true → a.2 ≠ b.2 :=
        ⟨fun a b h hb heq => h (heq ▸ hb) heq.symm⟩
      exact hp.arrive.apart.forall hua hva hpair hregister rfl
    · exact hp.not_among_of_mem_entries hv hregister hva (hp.arrive.among hua)
  · by_cases hva : (v, location) ∈ arrivals
    · exact hp.not_among_of_mem_entries hu hregister hua (hp.arrive.among hva)
    · rcases (mem_entries.1 hu).resolve_left hua with ⟨r, rfl, hr⟩ | ⟨x, rfl, hx⟩ | ⟨_, rfl, -⟩
      · rcases (mem_entries.1 hv).resolve_left hva with ⟨r', heq, hr'⟩ | ⟨_, heq, -⟩ | ⟨_, heq, -⟩
        · cases heq
          exact hp.regs.ne_of_clash hne hclash hr hr'
        · cases heq
        · cases heq
      · rcases (mem_entries.1 hv).resolve_left hva with ⟨_, heq, -⟩ | ⟨x', heq, hx'⟩ | ⟨_, heq, -⟩
        · cases heq
        · cases heq
          exact hp.xmms.ne_of_clash hne hclash hx hx'
        · cases heq
      · cases hregister

end Parts

end

theorem exists_typed {vs : List Variable}
    (htyped : ∀ v ∈ vs, ∃ ty, table.type? v.symbol = some ty) :
    ∃ typed, vs.mapM (fun v => return (v, ← v.typeIn table)) = .ok typed ∧
      ∀ {v ty}, (v, ty) ∈ typed ↔ v ∈ vs ∧ table.type? v.symbol = some ty := by
  obtain ⟨typed, hmap, hforall⟩ :=
    exists_mapM (l := vs) (g := fun v => return (v, ← v.typeIn table))
    (P := fun v p => p.1 = v ∧ table.type? v.symbol = some p.2) (by
      intro v hv
      obtain ⟨ty, hty⟩ := htyped v hv
      have htype : v.typeIn table = .ok ty := SymbolTable.typeOf_eq_ok.2 hty
      exact ⟨(v, ty), by rw [htype, bind_ok]; rfl, rfl, hty⟩)
  refine ⟨typed, hmap, fun {v ty} => ⟨fun h => ?_, fun ⟨hv, hty⟩ => ?_⟩⟩
  · obtain ⟨_, hv, rfl, hty⟩ := forall₂_exists_left hforall h
    exact ⟨hv, hty⟩
  · have hflip : List.Forall₂ (fun p v => p.1 = v ∧ table.type? v.symbol = some p.2) typed vs :=
      List.Forall₂.flip hforall
    obtain ⟨⟨_, ty'⟩, hp, rfl, hty'⟩ := forall₂_exists_left hflip hv
    cases hty.symm.trans hty'
    exact hp

/-- Placing the variables of a function succeeds if they have types. -/
theorem exists_ofLiveness {live : Arena (List (Point VariableSet))}
    (hg : Interference.ofLiveness f live = .ok g) (hparameters : ∀ v ∈ f.parameters, v ∈ g.nodes)
    (hnodes : ∀ v ∈ g.nodes, ∃ ty, table.type? v.symbol = some ty) :
    ∃ p, ofLiveness table f live = .ok p ∧ p.Places table f g := by
  obtain ⟨arrivals, harrivals, harrive⟩ :=
    exists_parameterLocations fun v hv => hnodes v (hparameters v hv)
  obtain ⟨typed, htyped, hmem⟩ := @exists_typed table (g.nodes.filter (· ∉ f.parameters))
    fun v hv => hnodes v (List.mem_filter.1 hv).1
  let general := g.color allocatableRegs (ofClass typed .general)
  let float := g.color allocatableXmms (ofClass typed .float)
  have hregs : g.Colors allocatableRegs (ofClass typed .general) general := g.colors_color _ _
  have hxmms : g.Colors allocatableXmms (ofClass typed .float) float := g.colors_color _ _
  have huncolored : ∀ v ∈ uncolored general ++ uncolored float,
      ∃ ty, table.type? v.symbol = some ty := by
    intro v hv
    have hclass : ∀ {c}, v ∈ ofClass typed c → ∃ ty, table.type? v.symbol = some ty := by
      intro c hc
      obtain ⟨ty, hty, -⟩ := mem_ofClass.1 hc
      exact ⟨ty, (hmem.1 hty).2⟩
    rcases List.mem_append.1 hv with h | h
    · exact hclass (hregs.mem_iff.1 (mem_of_getElem?_eq_some (mem_uncolored.1 h)))
    · exact hclass (hxmms.mem_iff.1 (mem_of_getElem?_eq_some (mem_uncolored.1 h)))
  obtain ⟨spills, frame, hspill, hslots⟩ := @exists_spill table {} _ huncolored
  have hparts : Parts table f g typed arrivals general float spills := by
    refine ⟨harrive, fun {v ty} => ?_, hregs, hxmms, hslots⟩
    rw [hmem, List.mem_filter, decide_eq_true_iff]
  let locations : Std.ExtTreeMap Variable Location :=
    .ofList (entries arrivals general float spills)
  let used := locations.toList.map Prod.snd
  let savedRegs := frame.reserveWords (allocatableRegs.filter (.reg · ∈ used))
  let savedXmms := savedRegs.2.reserveWords (allocatableXmms.filter (.xmm · ∈ used))
  refine ⟨⟨locations, spills, roundUp savedXmms.2.size 16, savedRegs.1, savedXmms.1⟩,
    ?_, ?_, ?_, ?_, ?_⟩
  · rw [ofLiveness, hg, bind_ok, harrivals, bind_ok]
    exact bind_eq_ok.2 ⟨typed, htyped, bind_eq_ok.2 ⟨_, hspill, rfl⟩⟩
  · intro v hv
    obtain ⟨location, hentry⟩ := hparts.exists_mem_entries hnodes hv
    refine Option.isSome_iff_exists.1 (Std.ExtTreeMap.mem_iff_isSome_getElem?.1 ?_)
    rw [Std.ExtTreeMap.mem_ofList, List.contains_iff_mem]
    exact List.mem_map.2 ⟨_, hentry, rfl⟩
  · intro v location h
    exact hparts.holds_of_mem_entries (mem_of_getElem?_ofList h)
  · intro u v location hne hclash hregister hu hv
    exact hparts.not_mem_entries hne hclash hregister (mem_of_getElem?_ofList hu)
      (mem_of_getElem?_ofList hv)
  · intro v x hv hx
    have hcolor := (mem_entries.1 (mem_of_getElem?_ofList hx)).resolve_left fun h =>
      hv (harrive.keys ▸ List.mem_map_of_mem h)
    have hpool : x ∈ allocatableXmms := by
      rcases hcolor with ⟨_, heq, -⟩ | ⟨_, heq, hcolor⟩ | ⟨_, heq, -⟩
      · cases heq
      · cases heq
        exact hxmms.mem_pool hcolor
      · cases heq
    have hused : Location.xmm x ∈ used :=
      List.mem_map.2 ⟨_, Std.ExtTreeMap.mem_toList_iff_getElem?_eq_some.2 hx, rfl⟩
    have hsaved : x ∈ savedXmms.1.map Prod.fst := by
      rw [Frame.keys_reserveWords]
      exact List.mem_filter.2 ⟨hpool, decide_eq_true hused⟩
    obtain ⟨⟨_, offset⟩, hmem, rfl⟩ := List.mem_map.1 hsaved
    exact Option.isSome_iff_exists.1 (List.lookup_isSome_iff.2 ⟨_, hmem, beq_self_eq_true _⟩)

end Placement

end Cinder
