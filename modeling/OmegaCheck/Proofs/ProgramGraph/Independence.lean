import OmegaCheck.Proofs.ProgramGraph.Edits
import OmegaCheck.Proofs.ProgramGraph.Names
import OmegaCheck.Proofs.ProgramGraph.Processes
import OmegaCheck.Proofs.SideBySide

/-!
# Independent programs

Programs that share no name do not see each other. Their program graphs can be interleaved and then
unfolded, or unfolded one by one and then interleaved as transition systems; a state of the one
system is a pair of states of the other, with the two memories put together.
-/

namespace OmegaCheck

open StateSpace

namespace Edge

variable {L : Type} {N : List String} {e : Edge L} {c : Condition} {a : Option Action}

/-- Next to a memory without these names the edge does what it does alone, and it makes no cell with
another name. -/
structure Local (N : List String) (e : Edge L) : Prop where
  defined : ∀ {m n : Memory}, n.Avoids N →
    ((edgeTrial Evaluators.standard (m ∪ n)).Defined e ↔
      (edgeTrial Evaluators.standard m).Defined e)
  gives : ∀ {m n : Memory}, n.Avoids N → ∀ {k : Memory},
    ((edgeTrial Evaluators.standard (m ∪ n)).Gives e k ↔
      ∃ k', (edgeTrial Evaluators.standard m).Gives e k' ∧ k' ∪ n = k)
  within : ∀ {m k : Memory}, m.Within N → (edgeTrial Evaluators.standard m).Gives e k → k.Within N

/-- The texts of the edge spell a condition and an action over these names. -/
structure Spells (N : List String) (e : Edge L) (c : Condition) (a : Option Action) : Prop where
  guard : e.guard = c.text
  wellNamed : c.all Expr.wellNamed = true
  does : e.Does a
  conditionNames : ∀ x ∈ c.names, x ∈ N
  actionNames : ∀ b ∈ a, ∀ x ∈ b.names, x ∈ N

namespace Spells

variable (h : e.Spells N c a) {m n : Memory}
include h

theorem mem_of_source? {channel : String} (hsource : Channel.source? e.action = some channel) :
    channel ∈ N := by
  rw [h.does.text] at hsource
  cases a with
  | none => cases hsource
  | some b =>
    have hnamed := (Action.accepted_iff.mp (h.does.accepted b rfl)).1
    obtain ⟨target, rfl⟩ := (Action.source?_text_eq_some_iff hnamed).mp hsource
    exact h.actionNames _ rfl channel List.mem_cons_self

theorem isFeasible_union (hn : n.Avoids N) :
    Channel.isFeasible (m ∪ n) e.action = Channel.isFeasible m e.action :=
  Channel.isFeasible_congr fun channel hsource =>
    Memory.get?_union_of_none (hn channel (h.mem_of_source? hsource))

theorem guard_union (hn : n.Avoids N) {b : Bool} :
    Evaluators.standard.guard (m ∪ n) e.guard = .ok b ↔
      Evaluators.standard.guard m e.guard = .ok b := by
  have hholds : c.holds (m ∪ n) = c.holds m :=
    Condition.holds_union fun x hx => hn x (h.conditionNames x hx)
  rw [h.guard, (Condition.agree_guard_text h.wellNamed _).eq_ok_iff, hholds,
    (Condition.agree_guard_text h.wellNamed _).eq_ok_iff]

theorem runAction_union (hn : n.Avoids N) :
    Stmt.runAction (m ∪ n) a = (Stmt.runAction m a).map (· ∪ n) := by
  cases a with
  | none => rfl
  | some b => exact Action.run_union fun x hx => hn x (h.actionNames b rfl x hx)

theorem effect_union (hn : n.Avoids N) {k : Memory} :
    Evaluators.standard.effect (m ∪ n) e.actionText = .ok k ↔
      ∃ k', Evaluators.standard.effect m e.actionText = .ok k' ∧ k' ∪ n = k := by
  simp only [h.does.effect_eq_ok_iff, h.runAction_union hn]
  cases Stmt.runAction m a with
  | error e => simp [Except.map]
  | ok k' => simp [Except.map]

theorem within_runAction {k : Memory} (hm : m.Within N) (hrun : Stmt.runAction m a = .ok k) :
    k.Within N := by
  cases a with
  | none =>
    cases hrun
    exact hm
  | some b => exact Action.within_run hm (h.actionNames b rfl) hrun

theorem isLocal : e.Local N where
  defined hn := by
    refine Trial.defined_congr (h.isFeasible_union hn) (fun b => h.guard_union hn) ?_
    simp only [edgeTrial, h.effect_union hn]
    constructor
    · rintro ⟨_, k, hk, _⟩
      exact ⟨k, hk⟩
    · rintro ⟨k, hk⟩
      exact ⟨_, k, hk, rfl⟩
  gives hn k := by
    constructor
    · rintro ⟨hready, hguard, heffect⟩
      obtain ⟨k', hk', rfl⟩ := (h.effect_union hn).mp heffect
      have hready' := (h.isFeasible_union hn).symm.trans hready
      exact ⟨k', ⟨hready', (h.guard_union hn).mp hguard, hk'⟩, rfl⟩
    · rintro ⟨k', ⟨hready, hguard, hk'⟩, rfl⟩
      exact ⟨(h.isFeasible_union hn).trans hready, (h.guard_union hn).mpr hguard,
        (h.effect_union hn).mpr ⟨k', hk', rfl⟩⟩
  within hm hgives := h.within_runAction hm (h.does.effect_eq_ok_iff.mp hgives.2.2)

end Spells

end Edge

theorem Stmt.isLocal_of_mem_edges {s : Stmt} {pg : ProgramGraph String} {e : Edge String}
    (hs : s.accepted = true) (hpg : s.compile = .ok pg) (he : e ∈ pg.edges) : e.Local s.names := by
  obtain ⟨r, c, a, r', hr, hstep, rfl⟩ := (mem_edges_iff hs hpg).mp he
  have hnames := hstep.namesOf
  exact Edge.Spells.isLocal ⟨rfl, hstep.all_condition (hr.all hs),
    ⟨rfl, hstep.all_action (hr.all hs)⟩, fun x hx => hr.names x (hnames.condition x hx),
    fun b hb x hx => hr.names x (hnames.action b hb x hx)⟩

namespace ProgramGraph

variable {L M : Type} [Element L] [Element M] {es : Evaluators}
variable {pg : ProgramGraph L} {qg : ProgramGraph M} {N N' : List String}

/-- The states in which a graph without initializations starts. -/
def starts (pg : ProgramGraph L) : List (L × Memory) :=
  (pg.initial.product (FinSet.ofList [∅])).toList

theorem mem_starts {x : L × Memory} : x ∈ pg.starts ↔ x.1 ∈ pg.initial ∧ x.2 = ∅ := by
  simp [starts]

theorem unfold_eq_ok_iff_of_starts [LocationText L] (hpg : pg.initializations = ∅) {bounds : Bounds}
    {ts : TransitionSystem (L × Memory) String String} :
    pg.unfold es bounds = .ok ts ↔ ∃ space, explore bounds pg.starts (pg.movesFrom es) = .ok space ∧
      space.toSystem pg.name ∅ ∅ (fun s => locationText s.1 :: s.2.propositions) = ts := by
  have hmemories : initialMemories es pg.initializations.toList = .ok (FinSet.ofList [∅]) := by
    rw [hpg]
    rfl
  rw [unfold_eq_ok_iff]
  constructor
  · rintro ⟨memories, space, hinitial, hspace, rfl⟩
    obtain rfl := Except.ok.inj (hmemories.symm.trans hinitial)
    exact ⟨space, hspace, rfl⟩
  · rintro ⟨space, hspace, rfl⟩
    exact ⟨_, space, hmemories, hspace, rfl⟩

theorem isReachable_of_unfold [LocationText L] (hpg : pg.initializations = ∅) {bounds : Bounds}
    {ts : TransitionSystem (L × Memory) String String} (h : pg.unfold es bounds = .ok ts) :
    IsReachable (pg.movesFrom es) pg.starts ts.space := by
  obtain ⟨space, hspace, rfl⟩ := (unfold_eq_ok_iff_of_starts hpg).mp h
  exact isReachable_of_explore hspace

theorem wellFormed_of_unfold [LocationText L] {bounds : Bounds}
    {ts : TransitionSystem (L × Memory) String String} (h : pg.unfold es bounds = .ok ts) :
    ts.WellFormed := by
  obtain ⟨_, space, _, hspace, rfl⟩ := unfold_eq_ok_iff.mp h
  exact (isReachable_of_explore hspace).wellFormed

theorem exists_unfold_iff [LocationText L] (hpg : pg.initializations = ∅) :
    (∃ horizon ts, pg.unfold es { horizon := horizon } = .ok ts) ↔
      ∃ space, IsReachable (pg.movesFrom es) pg.starts space := by
  constructor
  · rintro ⟨horizon, ts, hts⟩
    exact ⟨_, isReachable_of_unfold hpg hts⟩
  · rintro ⟨space, hspace⟩
    exact ⟨space.states.size, _,
      (unfold_eq_ok_iff_of_starts hpg).mpr ⟨space, hspace.explore_eq le_rfl, rfl⟩⟩

/-- Any evaluators will do that know the conditions and actions which the edges spell. -/
theorem unfold_standard_iff [LocationText L] (hpg : pg.initializations = ∅)
    (hspells : ∀ e ∈ pg.edges.toList, ∃ c a, e.Spells N c a ∧
      ∀ m, es.guard m e.guard = c.holds m ∧ es.effect m e.actionText = Stmt.runAction m a)
    {bounds : Bounds} {ts : TransitionSystem (L × Memory) String String} :
    pg.unfold Evaluators.standard bounds = .ok ts ↔ pg.unfold es bounds = .ok ts := by
  refine unfold_congr (fun init hinit m => ?_) (fun e he m b => ?_) fun e he m n => ?_
  · rw [hpg] at hinit
    obtain rfl : init = [] := List.mem_singleton.mp hinit
    rfl
  · obtain ⟨c, a, h, hes⟩ := hspells e (FinSet.mem_toList.mpr he)
    rw [(hes m).1, h.guard]
    exact (Condition.agree_guard_text h.wellNamed m).eq_ok_iff
  · obtain ⟨c, a, h, hes⟩ := hspells e (FinSet.mem_toList.mpr he)
    rw [(hes m).2]
    exact h.does.effect_eq_ok_iff

/-- A graph that starts from the empty memory and whose edges are confined to some names. -/
structure Confined (N : List String) (pg : ProgramGraph L) : Prop where
  wellFormed : pg.WellFormed
  initializations : pg.initializations = ∅
  exists_initial : ∃ l, l ∈ pg.initial
  edges : ∀ e, e ∈ pg.edges → e.Local N

theorem Confined.within_of_reached (h : pg.Confined N) {x : L × Memory}
    (hx : Reached (pg.movesFrom Evaluators.standard) pg.starts x) : x.2.Within N := by
  obtain ⟨s, hs, n, hwalk⟩ := hx
  have hempty : s.2.Within N := by
    rw [(mem_starts.mp hs).2]
    exact Memory.within_empty N
  refine hwalk.invariant (p := fun y => y.2.Within N) hempty ?_
  rintro y z hy ⟨steps, a, hsteps, hz⟩
  obtain ⟨e, he, _, k, hgives, heq⟩ := ((collects_movesFrom y).mem_iff steps hsteps (a, z)).mp hz
  cases heq
  exact (h.edges e he).within hy hgives

/-- Two states as one, with both locations and all cells. -/
def merge (x : (L × Memory) × (M × Memory)) : (L × M) × Memory :=
  ((x.1.1, x.2.1), x.1.2 ∪ x.2.2)

section Merge

variable (hpg : pg.Confined N) (hqg : qg.Confined N') (hnames : ∀ x ∈ N, x ∉ N')
include hpg hqg hnames

theorem Confined.renamed_movesFrom {x : (L × Memory) × (M × Memory)} (hl : x.1.1 ∈ pg.locations)
    (hm : x.2.1 ∈ qg.locations) (hleft : x.1.2.Within N) (hright : x.2.2.Within N') :
    Renamed merge
      (sideBySide (pg.movesFrom Evaluators.standard) (qg.movesFrom Evaluators.standard) x)
      ((pg.interleave qg).movesFrom Evaluators.standard (merge x)) := by
  obtain ⟨⟨l, m⟩, ⟨l', n⟩⟩ := x
  have hn : n.Avoids N := hright.avoids hnames
  have hm' : m.Avoids N' := hleft.avoids fun x hx hx' => hnames x hx' hx
  -- The second graph has its cells on the right of the union, but `Edge.Local` speaks of the left.
  have hcomm : ∀ {k : Memory}, k.Within N' → m ∪ k = k ∪ m := fun hk =>
    Memory.union_comm hleft (hk.avoids hnames)
  refine (collects_sideBySide (collects_movesFrom _) (collects_movesFrom _)).renamed
    (collects_movesFrom_interleave hl hm) (and_congr ?_ ?_) fun _ a y => ?_
  · exact forall₃_congr fun e he _ => ((hpg.edges e he).defined hn).symm
  · simp only [merge, hcomm hright]
    exact forall₃_congr fun e he _ => ((hqg.edges e he).defined hm').symm
  · constructor
    · rintro (⟨e, he, hsource, k, hgives, heq⟩ | ⟨e, he, hsource, k, hgives, heq⟩)
      · cases heq
        obtain ⟨k', hk', rfl⟩ := ((hpg.edges e he).gives hn).mp hgives
        exact ⟨((e.target, k'), (l', n)), .inl ⟨⟨e, he, hsource, k', hk', rfl⟩, rfl⟩, rfl⟩
      · cases heq
        simp only [merge, hcomm hright] at hgives
        obtain ⟨k', hk', rfl⟩ := ((hqg.edges e he).gives hm').mp hgives
        refine ⟨((l, m), (e.target, k')), .inr ⟨⟨e, he, hsource, k', hk', rfl⟩, rfl⟩, ?_⟩
        rw [merge, hcomm ((hqg.edges e he).within hright hk')]
        rfl
    · rintro ⟨⟨⟨_, k⟩, ⟨_, k'⟩⟩, ⟨⟨e, he, hsource, _, hgives, heq⟩, hstay⟩ |
        ⟨⟨e, he, hsource, _, hgives, heq⟩, hstay⟩, rfl⟩
      · cases heq
        cases hstay
        exact .inl ⟨e, he, hsource, _, ((hpg.edges e he).gives hn).mpr ⟨k, hgives, rfl⟩, rfl⟩
      · cases heq
        cases hstay
        refine .inr ⟨e, he, hsource, m ∪ k', ?_, rfl⟩
        simp only [merge, hcomm hright, hcomm ((hqg.edges e he).within hright hgives)]
        exact ((hqg.edges e he).gives hm').mpr ⟨k', hgives, rfl⟩

theorem Confined.renaming_merge :
    Renaming merge
      (sideBySide (pg.movesFrom Evaluators.standard) (qg.movesFrom Evaluators.standard))
      (pg.starts ×ˢ qg.starts) ((pg.interleave qg).movesFrom Evaluators.standard)
      (pg.interleave qg).starts where
  mem_initial y := by
    obtain ⟨⟨l, l'⟩, k⟩ := y
    have hempty : (∅ ∪ ∅ : Memory) = ∅ := rfl
    constructor
    · intro hy
      obtain ⟨hinitial, rfl⟩ := mem_starts.mp hy
      obtain ⟨hl, hl'⟩ := FinSet.mem_product.mp hinitial
      have hpair : ((l, ∅), (l', ∅)) ∈ pg.starts ×ˢ qg.starts :=
        List.mem_product.mpr ⟨mem_starts.mpr ⟨hl, rfl⟩, mem_starts.mpr ⟨hl', rfl⟩⟩
      exact ⟨_, hpair, by rw [merge, hempty]⟩
    · rintro ⟨⟨⟨_, _⟩, ⟨_, _⟩⟩, hpair, heq⟩
      obtain ⟨hleft, hright⟩ := List.mem_product.mp hpair
      obtain ⟨hl, rfl⟩ := mem_starts.mp hleft
      obtain ⟨hl', rfl⟩ := mem_starts.mp hright
      cases heq
      exact mem_starts.mpr ⟨FinSet.mem_product.mpr ⟨hl, hl'⟩, hempty⟩
  renamed x hx := by
    obtain ⟨hleft, hright⟩ := reached_of_sideBySide (fun _ => List.mem_product) hx
    exact hpg.renamed_movesFrom hqg hnames (hpg.wellFormed.mem_locations_of_reached hleft)
      (hqg.wellFormed.mem_locations_of_reached hright) (hpg.within_of_reached hleft)
      (hqg.within_of_reached hright)
  injective x y hx hy heq := by
    obtain ⟨hleft, hright⟩ := reached_of_sideBySide (fun _ => List.mem_product) hx
    obtain ⟨hleft', hright'⟩ := reached_of_sideBySide (fun _ => List.mem_product) hy
    have hm := hpg.within_of_reached hleft
    have hm' := hpg.within_of_reached hleft'
    have hn := hqg.within_of_reached hright
    have hn' := hqg.within_of_reached hright'
    have hunion : x.1.2 ∪ x.2.2 = y.1.2 ∪ y.2.2 := congrArg Prod.snd heq
    have hfirst := Memory.eq_of_union_eq hm hm' (hn.avoids hnames) (hn'.avoids hnames) hunion
    rw [Memory.union_comm hm (hn.avoids hnames),
      Memory.union_comm hm' (hn'.avoids hnames)] at hunion
    have hswap : ∀ x ∈ N', x ∉ N := fun x hx hx' => hnames x hx' hx
    have hsecond := Memory.eq_of_union_eq hn hn' (hm.avoids hswap) (hm'.avoids hswap) hunion
    have hlocations : (x.1.1, x.2.1) = (y.1.1, y.2.1) := congrArg Prod.fst heq
    obtain ⟨hl, hl'⟩ := Prod.mk.inj hlocations
    exact Prod.ext (Prod.ext hl hfirst) (Prod.ext hl' hsecond)

omit hnames in
theorem Confined.initializations_interleave : (pg.interleave qg).initializations = ∅ := by
  change jointInitializations pg.initializations qg.initializations = ∅
  rw [hpg.initializations, hqg.initializations]
  rfl

theorem Confined.exists_unfold_interleave_iff [LocationText L] [LocationText M] :
    (∃ horizon ts, (pg.interleave qg).unfold Evaluators.standard { horizon := horizon } = .ok ts) ↔
      (∃ horizon ts, pg.unfold Evaluators.standard { horizon := horizon } = .ok ts) ∧
      ∃ horizon ts, qg.unfold Evaluators.standard { horizon := horizon } = .ok ts := by
  have hrenaming := hpg.renaming_merge hqg hnames
  rw [exists_unfold_iff (hpg.initializations_interleave hqg),
    exists_unfold_iff hpg.initializations, exists_unfold_iff hqg.initializations]
  constructor
  · rintro ⟨space, hspace⟩
    obtain ⟨joint, hjoint⟩ := hrenaming.exists_isReachable hspace
    obtain ⟨l, hl⟩ := hpg.exists_initial
    obtain ⟨l', hl'⟩ := hqg.exists_initial
    exact hjoint.exists_of_sideBySide (s := (l, ∅)) (t := (l', ∅)) (fun _ => List.mem_product)
      (mem_starts.mpr ⟨hl, rfl⟩) (mem_starts.mpr ⟨hl', rfl⟩)
  · rintro ⟨⟨space, hspace⟩, space', hspace'⟩
    obtain ⟨joint, hjoint⟩ := hspace.exists_sideBySide (fun _ => List.mem_product) hspace'
    exact ⟨_, hrenaming.isReachable_map hjoint⟩

variable [LocationText L] [LocationText M] {bounds bounds₁ bounds₂ : Bounds}
  {ts : TransitionSystem ((L × M) × Memory) String String}
  {ts₁ : TransitionSystem (L × Memory) String String}
  {ts₂ : TransitionSystem (M × Memory) String String}
  (h : (pg.interleave qg).unfold Evaluators.standard bounds = .ok ts)
  (h₁ : pg.unfold Evaluators.standard bounds₁ = .ok ts₁)
  (h₂ : qg.unfold Evaluators.standard bounds₂ = .ok ts₂)
include h h₁ h₂

theorem Confined.isIsomorphism_merge :
    TransitionSystem.IsIsomorphism merge (TransitionSystem.interleave ∅ ts₁ ts₂) ts := by
  have hjoint := (isReachable_of_unfold hpg.initializations h₁).interleave
    (fun _ => List.mem_product) (isReachable_of_unfold hqg.initializations h₂)
  exact (hpg.renaming_merge hqg hnames).isIsomorphism hjoint
    (isReachable_of_unfold (hpg.initializations_interleave hqg) h)

/-- What the graphs reach alone, they reach together. -/
theorem Confined.merge_mem_states {l : L} {l' : M} {m m' : Memory} (hs : (l, m) ∈ ts₁.states)
    (ht : (l', m') ∈ ts₂.states) : ((l, l'), m ∪ m') ∈ ts.states := by
  have hpair : ((l, m), (l', m')) ∈ (TransitionSystem.interleave ∅ ts₁ ts₂).states :=
    ((isReachable_of_unfold hpg.initializations h₁).mem_states_interleave
      (fun _ => List.mem_product) (isReachable_of_unfold hqg.initializations h₂)).mpr ⟨hs, ht⟩
  exact (hpg.isIsomorphism_merge hqg hnames h h₁ h₂).states.mapsTo hpair

end Merge

end ProgramGraph

theorem Stmt.confined {s : Stmt} {pg : ProgramGraph String} (hs : s.accepted = true)
    (hpg : s.compile = .ok pg) : pg.Confined s.names := by
  have hedges : ∀ e, e ∈ pg.edges → e.Local s.names := fun e => isLocal_of_mem_edges hs hpg
  rw [compile_eq_ok] at hpg
  cases hpg
  refine ⟨⟨fun l hl => ?_, fun e he => ?_, fun e he => ?_⟩, rfl, ⟨s.text, by simp⟩, hedges⟩
  · obtain rfl : l = s.text := by simpa using hl
    simp
  all_goals
    have he' : e ∈ s.firstEdges ++ s.laterEdges := by simpa using he
    refine FinSet.mem_insertAll.mpr (.inl (List.mem_cons_of_mem _ ?_))
    exact List.mem_flatMap.mpr ⟨e, he', by simp⟩

/-- Programs that share no name can be interleaved before or after they are unfolded. -/
theorem unfold_interleave_independent {source₁ source₂ : String} {s₁ s₂ : Stmt}
    {pg₁ pg₂ : ProgramGraph String} (hparse₁ : Stmt.parse source₁ = .ok s₁)
    (hparse₂ : Stmt.parse source₂ = .ok s₂) (hpg₁ : s₁.compile = .ok pg₁)
    (hpg₂ : s₂.compile = .ok pg₂) (hnames : ∀ x ∈ s₁.names, x ∉ s₂.names) :
    pg₁.interleaveChecked pg₂ = .ok (pg₁.interleave pg₂) ∧
    ((∃ horizon ts,
        (pg₁.interleave pg₂).unfold Evaluators.standard { horizon := horizon } = .ok ts) ↔
      (∃ horizon ts₁, pg₁.unfold Evaluators.standard { horizon := horizon } = .ok ts₁) ∧
      ∃ horizon ts₂, pg₂.unfold Evaluators.standard { horizon := horizon } = .ok ts₂) ∧
    ∀ bounds bounds₁ bounds₂ ts ts₁ ts₂,
      (pg₁.interleave pg₂).unfold Evaluators.standard bounds = .ok ts →
      pg₁.unfold Evaluators.standard bounds₁ = .ok ts₁ →
      pg₂.unfold Evaluators.standard bounds₂ = .ok ts₂ →
      TransitionSystem.interleaveChecked ∅ ts₁ ts₂ = .ok (TransitionSystem.interleave ∅ ts₁ ts₂) ∧
      TransitionSystem.IsIsomorphism (fun x => ((x.1.1, x.2.1), x.1.2 ∪ x.2.2))
        (TransitionSystem.interleave ∅ ts₁ ts₂) ts := by
  have hconfined₁ := Stmt.confined (Stmt.accepted_of_parse hparse₁) hpg₁
  have hconfined₂ := Stmt.confined (Stmt.accepted_of_parse hparse₂) hpg₂
  refine ⟨ProgramGraph.interleaveChecked_eq_ok hconfined₁.wellFormed hconfined₂.wellFormed,
    hconfined₁.exists_unfold_interleave_iff hconfined₂ hnames, ?_⟩
  intro bounds bounds₁ bounds₂ ts ts₁ ts₂ h h₁ h₂
  have hchecked := TransitionSystem.interleaveChecked_eq_ok ∅
    (ProgramGraph.wellFormed_of_unfold h₁) (ProgramGraph.wellFormed_of_unfold h₂)
  exact ⟨hchecked, hconfined₁.isIsomorphism_merge hconfined₂ hnames h h₁ h₂⟩

/-- Sets a variable that is not set. -/
def setting : Stmt := .choice [(.not (.var "x"), .basic (.assign "x" (.int 1)))]

/-- Puts a message into a queue and takes it out. -/
def buffering : Stmt := .seq (.basic (.send "c" (.int 7))) (.basic (.receive "c" "y"))

/-- The meaning of the texts of `setting`, without reading them. -/
def settingEvaluator : Evaluator where
  guard? m _ := some (Condition.holds m (.under (.not (.var "x")) .always))
  effect? m _ := some (Action.run m (.assign "x" (.int 1)))

def bufferingEvaluator : Evaluator where
  guard? _ _ := some (.ok true)
  effect? m text := some <|
    if text = "c!7" then Action.run m (.send "c" (.int 7)) else Action.run m (.receive "c" "y")

theorem exists_unfold_setting :
    ∃ ts, setting.graph.unfold Evaluators.standard {} = .ok ts ∧ ts.states.size = 2 ∧
      ("", Memory.set ∅ "x" (.int 1)) ∈ ts.states := by
  have hrun : ∃ ts, setting.graph.unfold [settingEvaluator] {} = .ok ts ∧ ts.states.size = 2 ∧
      ("", Memory.set ∅ "x" (.int 1)) ∈ ts.states := ⟨_, rfl, rfl, by decide⟩
  obtain ⟨ts, hts, hstates⟩ := hrun
  have hedges : setting.graph.edges.toList =
      [⟨"if :: !x -> x := 1 fi", "(!x)", "x := 1", ""⟩] := rfl
  have hempty := (Stmt.confined (by decide) setting.compile_eq_graph).initializations
  refine ⟨ts, (ProgramGraph.unfold_standard_iff (N := ["x"]) hempty ?_).mpr hts, hstates⟩
  rw [hedges, List.forall_mem_singleton]
  refine ⟨.under (.not (.var "x")) .always, some (.assign "x" (.int 1)), ?_, fun m => ⟨rfl, rfl⟩⟩
  exact ⟨rfl, by decide, ⟨rfl, by decide⟩, by decide, by decide⟩

theorem exists_unfold_buffering :
    ∃ ts, buffering.graph.unfold Evaluators.standard {} = .ok ts ∧ ts.states.size = 3 ∧
      ("c?y", Memory.set ∅ "c" (.queue [7])) ∈ ts.states := by
  have hrun : ∃ ts, buffering.graph.unfold [bufferingEvaluator] {} = .ok ts ∧ ts.states.size = 3 ∧
      ("c?y", Memory.set ∅ "c" (.queue [7])) ∈ ts.states := ⟨_, rfl, rfl, by decide⟩
  obtain ⟨ts, hts, hstates⟩ := hrun
  have hedges : buffering.graph.edges.toList =
      [⟨"c!7; c?y", "true", "c!7", "c?y"⟩, ⟨"c?y", "true", "c?y", ""⟩] := rfl
  have hempty := (Stmt.confined (by decide) buffering.compile_eq_graph).initializations
  refine ⟨ts, (ProgramGraph.unfold_standard_iff (N := ["c", "y"]) hempty ?_).mpr hts, hstates⟩
  rw [hedges, List.forall_mem_cons, List.forall_mem_singleton]
  constructor
  · refine ⟨.always, some (.send "c" (.int 7)), ?_, fun m => ⟨rfl, rfl⟩⟩
    exact ⟨rfl, rfl, ⟨rfl, by decide⟩, by decide, by decide⟩
  · refine ⟨.always, some (.receive "c" "y"), ?_, fun m => ⟨rfl, rfl⟩⟩
    exact ⟨rfl, rfl, ⟨rfl, by decide⟩, by decide, by decide⟩

theorem unfold_setting_buffering_independent : ∃ joint horizon ts ts₁ ts₂ composite,
    setting.graph.interleaveChecked buffering.graph = .ok joint ∧
    setting.graph.unfold Evaluators.standard {} = .ok ts₁ ∧
    buffering.graph.unfold Evaluators.standard {} = .ok ts₂ ∧
    joint.unfold Evaluators.standard { horizon := horizon } = .ok ts ∧
    ts₁.states.size = 2 ∧ ts₂.states.size = 3 ∧
    TransitionSystem.interleaveChecked ∅ ts₁ ts₂ = .ok composite ∧
    TransitionSystem.IsIsomorphism (fun x => ((x.1.1, x.2.1), x.1.2 ∪ x.2.2)) composite ts := by
  have hparse₁ : Stmt.parse setting.text = .ok setting := Stmt.parse_text (by decide)
  have hparse₂ : Stmt.parse buffering.text = .ok buffering := Stmt.parse_text (by decide)
  obtain ⟨hjoint, hboth, hfree⟩ := unfold_interleave_independent hparse₁ hparse₂
    setting.compile_eq_graph buffering.compile_eq_graph (by decide)
  obtain ⟨ts₁, h₁, hsize₁, _⟩ := exists_unfold_setting
  obtain ⟨ts₂, h₂, hsize₂, _⟩ := exists_unfold_buffering
  obtain ⟨horizon, ts, h⟩ := hboth.mpr ⟨⟨_, ts₁, h₁⟩, _, ts₂, h₂⟩
  obtain ⟨hcomposite, hisomorphism⟩ := hfree _ _ _ _ _ _ h h₁ h₂
  exact ⟨_, horizon, ts, ts₁, ts₂, _, hjoint, h₁, h₂, h, hsize₁, hsize₂, hcomposite, hisomorphism⟩

end OmegaCheck
