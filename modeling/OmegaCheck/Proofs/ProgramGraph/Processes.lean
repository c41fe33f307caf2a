import OmegaCheck.Proofs.Channel
import OmegaCheck.Proofs.ProgramGraph.Meaning
import OmegaCheck.Proofs.ProgramGraph.Unfolding

/-!
# Program graphs of programs

The texts on the edges of a graph that was compiled from a program spell its conditions and actions,
and an edge does what its action does.
-/

namespace OmegaCheck

/-- The edge is labelled with the text of the action, or with no text. -/
structure Edge.Does {L : Type} (e : Edge L) (a : Option Action) : Prop where
  text : e.action = Stmt.actionText a
  accepted : ∀ b ∈ a, b.accepted = true

theorem Edge.Does.effect_eq_ok_iff {L : Type} {e : Edge L} {a : Option Action} (ha : e.Does a)
    {m n : Memory} :
    Evaluators.standard.effect m e.actionText = .ok n ↔ Stmt.runAction m a = .ok n := by
  have htext : e.actionText = Stmt.actionText a := ha.text
  rw [htext]
  cases a with
  | none => exact (Agree.ok m).eq_ok_iff
  | some b =>
    obtain ⟨hnamed, hfilled⟩ := Action.accepted_iff.mp (ha.accepted b rfl)
    exact (Action.agree_effect_text hnamed hfilled m).eq_ok_iff

def Stmt.graph (s : Stmt) : ProgramGraph String := s.compile.toOption.getD .empty

theorem Stmt.compile_eq_graph (s : Stmt) : s.compile = .ok s.graph := by
  rw [graph, compile_eq_ok]
  rfl

namespace ProgramGraph

/-- The graph of a program, under any name and with any initializations. -/
def IsProcess (pg : ProgramGraph String) : Prop :=
  ∃ source base, ofSource source = .ok base ∧
    pg = { base with name := pg.name, initializations := pg.initializations }

theorem exists_of_ofSource {source : String} {pg : ProgramGraph String}
    (h : ofSource source = .ok pg) : ∃ s, Stmt.parse source = .ok s ∧ s.compile = .ok pg := by
  obtain ⟨s, hparse, hcompile⟩ := bind_eq_ok_iff.mp h
  exact ⟨s, mapError_eq_ok_iff.mp hparse, mapError_eq_ok_iff.mp hcompile⟩

theorem ofSource_text {s : Stmt} (hs : s.accepted = true) (hnorm : s.norm = s) :
    ofSource s.text = .ok s.graph := by
  have hparse : Stmt.parse s.text = .ok s := by rw [Stmt.parse_text hs, hnorm]
  exact bind_eq_ok_iff.mpr ⟨s, mapError_eq_ok_iff.mpr hparse,
    mapError_eq_ok_iff.mpr s.compile_eq_graph⟩

theorem isProcess_graph {s : Stmt} (hs : s.accepted = true) (hnorm : s.norm = s) :
    s.graph.IsProcess :=
  ⟨s.text, s.graph, ofSource_text hs hnorm, rfl⟩

theorem IsProcess.initializedBy {pg : ProgramGraph String} (h : pg.IsProcess)
    (inits : FinSet (List String)) : IsProcess { pg with initializations := inits } := by
  obtain ⟨source, base, hbase, hpg⟩ := h
  refine ⟨source, base, hbase, ?_⟩
  rw [hpg]

theorem IsProcess.exists_does {pg : ProgramGraph String} (h : pg.IsProcess) {e : Edge String}
    (he : e ∈ pg.edges) : ∃ a, e.Does a := by
  obtain ⟨source, base, hbase, hpg⟩ := h
  obtain ⟨s, hparse, hcompile⟩ := exists_of_ofSource hbase
  rw [hpg] at he
  have hs := Stmt.accepted_of_parse hparse
  obtain ⟨r, c, a, r', hr, hstep, rfl⟩ := (Stmt.mem_edges_iff hs hcompile).mp he
  exact ⟨a, rfl, hstep.all_action (hr.all hs)⟩

end ProgramGraph

end OmegaCheck
