import Abnf.Tables
import Abnf.Proofs.Engine.Trial
import Abnf.Proofs.Metagrammar.Descent

/-!
# Trials of texts

What recognition finds in a text, said by a trial of the file symbol: this evaluates without the tables
of the metagrammar and without the records, so what is found in a small text can be
decided.

* `recognize_of_read?`: recognition finds what the trial finds.
-/

namespace Abnf.Metagrammar

/-- The flaws of a text and the trees of its phrases, as a trial finds them. -/
def read? (source : Source) (strict : Bool) : Option (List (Nat × Flaw) × List Node) :=
  (scheme.trial watch.see 1000 (ref .file) 0 source.bytes.toList { strict := strict }).map fun t =>
    (t.seen.flaws.toList ++
      (if t.result = some source.bytes.size then [] else [(t.result.getD 0, .unreadable)]), t.nodes)

variable {source : Source} {strict : Bool} {flaws : List (Nat × Flaw)} {nodes : List Node}

/-- Recognition finds what the trial finds. -/
theorem recognize_of_read? (h : read? source strict = some (flaws, nodes)) :
    ∃ recognition, recognize source strict = .ok recognition ∧ recognition.flaws = flaws ∧
      recognition.records = (Node.recordsAll 0 nodes).toArray := by
  obtain ⟨t, htrial, hfound⟩ := Option.map_eq_some_iff.1 h
  obtain ⟨rfl, rfl⟩ := Prod.mk.inj hfound
  obtain ⟨events, hrun, hseen⟩ := Engine.run_of_trial htrial
  obtain ⟨result, nodes, events', hrun', hrecognize⟩ := recognize_eq source strict
  obtain ⟨rfl, rfl, rfl⟩ := hrun.unique hrun'
  exact ⟨_, hrecognize, by rw [hseen], rfl⟩

/-- The tables of a text are those of the definitions that the trial finds in it. -/
theorem ofRecognition_of_read? (h : read? source strict = some ([], nodes)) :
    ∃ recognition, recognize source strict = .ok recognition ∧ recognition.flaws = [] ∧
      Tables.ofRecognition source recognition =
        Tables.ofDefinitions (Definition.ofForest source nodes) := by
  obtain ⟨recognition, hrecognize, hflaws, hrecords⟩ := recognize_of_read? h
  refine ⟨recognition, hrecognize, hflaws, ?_⟩
  rw [Tables.ofRecognition, hflaws, hrecords, Records.forest_ofNodes]
  rfl

end Abnf.Metagrammar
