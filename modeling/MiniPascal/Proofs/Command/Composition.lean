import MiniPascal.Proofs.Command.Accepted
import MiniPascal.Proofs.Command.Pieces
import MiniPascal.Proofs.Editor.Answers
import MiniPascal.Proofs.Wire.RoundTrip

/-! What the command answers. Its phases follow one another, each fails in its own way, and what is
written is the program in the form asked for and then what the program writes. -/
namespace MiniPascal.Command

/-- The file holds the text. -/
def Holds (file : Except FileFault ByteArray) (source : String) : Prop := file = .ok source.toUTF8

/-- The file cannot be read as text, for that reason. -/
inductive Unreadable : Except FileFault ByteArray → FileFault → Prop
  | fault (f : FileFault) : Unreadable (.error f) f
  | malformed {bytes : ByteArray} (h : ∀ source : String, source.toUTF8 ≠ bytes) :
    Unreadable (.ok bytes) .malformed

/-- What the command may answer, by the phase it ends in. -/
inductive Composed (o : Options) (file : Except FileFault ByteArray) : Answer → Prop
  | unread {f : FileFault} (h : Unreadable file f) : Composed o file
    ⟨1, .empty, some ("error: failed to read " ++ o.file ++ ": " ++ f.message)⟩
  | refused {source : String} {f : Failure} (hs : Holds file source)
    (h : compile source = .error (.failure f)) : Composed o file
    ⟨1, .empty, some ("error: compilation failed with " ++ toString f.all.length ++ " error(s)")⟩
  | overloaded {source : String} {d : Defect} (hs : Holds file source)
    (h : compile source = .error (.defect d)) (hl : ¬ LabelsFit source) : Composed o file
    ⟨101, .empty, some d.message⟩
  | compiled {source : String} {p : Program} (hs : Holds file source)
    (h : compile source = .ok p) (hr : o.run = false) : Composed o file
    ⟨0, (emitted o.emit p).toUTF8, none⟩
  | ended {source : String} {p : Program} {output : ByteArray} {n : Nat} (hs : Holds file source)
    (h : compile source = .ok p) (hr : o.run = true)
    (hd : p.Delivers o.maxSteps ⟨output, .ok n⟩) : Composed o file
    ⟨0, (emitted o.emit p).toUTF8 ++ output, none⟩
  | aborted {source : String} {p : Program} {output : ByteArray} {e : RunError}
    (hs : Holds file source) (h : compile source = .ok p) (hr : o.run = true)
    (hd : p.Delivers o.maxSteps ⟨output, .error e⟩) : Composed o file
    ⟨1, (emitted o.emit p).toUTF8 ++ output, some ("error: program aborted: " ++ e.message)⟩

variable {o : Options} {file : Except FileFault ByteArray} {source source' : String}
  {p : Program} {a b : Answer} {f : Failure} {reason : FileFault} {r : RunResult}
  {front : ByteArray}

theorem fromUTF8?_eq_some_iff {bytes : ByteArray} :
    String.fromUTF8? bytes = some source ↔ bytes = source.toUTF8 := by
  constructor
  · intro h
    unfold String.fromUTF8? at h
    split at h
    · cases h
      rfl
    · cases h
  · rintro rfl
    exact dif_pos source.isValidUTF8

theorem sourceOf_eq_ok_iff : sourceOf file = .ok source ↔ Holds file source := by
  unfold Holds
  cases file with
  | error f => simp [sourceOf, bind, Except.bind]
  | ok bytes =>
    rw [Except.ok.injEq, ← fromUTF8?_eq_some_iff]
    cases h : String.fromUTF8? bytes <;>
      simp [sourceOf, bind, Except.bind, h, pure, Except.pure]

theorem sourceOf_eq_error_iff : sourceOf file = .error reason ↔ Unreadable file reason := by
  constructor
  · intro h
    cases file with
    | error f =>
      cases h
      exact .fault _
    | ok bytes =>
      cases hb : String.fromUTF8? bytes with
      | some source => simp [sourceOf, bind, Except.bind, hb, pure, Except.pure] at h
      | none =>
        simp only [sourceOf, bind, Except.bind, hb, Except.error.injEq] at h
        subst h
        refine .malformed ?_
        rintro source rfl
        rw [fromUTF8?_eq_some_iff.2 rfl] at hb
        cases hb
  · rintro (_ | h)
    · rfl
    · next bytes =>
      cases hb : String.fromUTF8? bytes with
      | some source => exact absurd (fromUTF8?_eq_some_iff.1 hb).symm (h source)
      | none => simp [sourceOf, bind, Except.bind, hb]

theorem Holds.unique (h : Holds file source) (h' : Holds file source') : source = source' := by
  have hsource := sourceOf_eq_ok_iff.2 h
  rw [sourceOf_eq_ok_iff.2 h'] at hsource
  exact (Except.ok.inj hsource).symm

theorem missingLabel?_of_compile (h : compile source = .ok p) : p.missingLabel? = none := by
  obtain ⟨a, -, -, -, rfl⟩ := denotes_of_compile h
  exact a.missingLabel?_program

theorem prepare_of_holds (h : Holds file source) : prepare o file =
    match compile source with
    | .error (.failure f) => .ended (.failure f.message)
    | .error (.defect d) => .ended ⟨101, .empty, some d.message⟩
    | .ok p =>
      if o.run then .run (emitted o.emit p).toUTF8 p
      else .ended ⟨0, (emitted o.emit p).toUTF8, none⟩ := by
  have hsource := sourceOf_eq_ok_iff.2 h
  unfold prepare
  split
  · next f hf =>
    rw [hsource] at hf
    cases hf
  · next u hu =>
    rw [hsource] at hu
    cases hu
    rfl

theorem failure_unread {name reason : String} :
    Answer.failure ("failed to read " ++ name ++ ": " ++ reason) =
      ⟨1, .empty, some ("error: failed to read " ++ name ++ ": " ++ reason)⟩ := by
  have hfront : "error: failed to read " = "error: " ++ "failed to read " := rfl
  rw [hfront]
  simp only [Answer.failure, String.append_assoc]

theorem error_append {phase rest : String} :
    "error: " ++ (phase ++ rest ++ " error(s)") = "error: " ++ phase ++ rest ++ " error(s)" := by
  rw [← String.append_assoc, ← String.append_assoc]

theorem failure_refused : Answer.failure f.message =
    ⟨1, .empty,
      some ("error: compilation failed with " ++ toString f.all.length ++ " error(s)")⟩ :=
  congrArg (fun text => (⟨1, .empty, some text⟩ : Answer)) error_append

/-- The command only runs what it has compiled, if it is to run. -/
theorem prepare_eq_run_iff : prepare o file = .run front p ↔
    ∃ source, Holds file source ∧ compile source = .ok p ∧ o.run = true ∧
      front = (emitted o.emit p).toUTF8 := by
  constructor
  · intro h
    cases hsource : sourceOf file with
    | error f => simp [prepare, hsource] at h
    | ok source =>
      have hs := sourceOf_eq_ok_iff.1 hsource
      refine ⟨source, hs, ?_⟩
      rw [prepare_of_holds hs] at h
      split at h
      · cases h
      · cases h
      · next hc =>
        split at h
        · next hr =>
          cases h
          exact ⟨hc, hr, rfl⟩
        · cases h
  · rintro ⟨source, hs, hc, hr, rfl⟩
    simp only [prepare_of_holds hs, hc, hr, if_true]

/-- The command ends early where a file cannot be read or does not compile, or where the program is
not to be run. -/
theorem composed_of_prepare (h : prepare o file = .ended a) : Composed o file a := by
  cases hsource : sourceOf file with
  | error f =>
    simp only [prepare, hsource, failure_unread, Phase.ended.injEq] at h
    subst h
    exact .unread (sourceOf_eq_error_iff.1 hsource)
  | ok source =>
    have hs := sourceOf_eq_ok_iff.1 hsource
    rw [prepare_of_holds hs] at h
    split at h
    · next f hc =>
      rw [failure_refused, Phase.ended.injEq] at h
      subst h
      exact .refused hs hc
    · next d hc =>
      cases h
      refine .overloaded hs hc ?_
      intro hfit
      exact compile_ne_defect hfit d hc
    · next hc =>
      split at h
      · cases h
      · next hr =>
        cases h
        exact .compiled hs hc (by simpa using hr)

theorem composed_of_delivers (hs : Holds file source) (hc : compile source = .ok p)
    (hr : o.run = true) (hd : p.Delivers o.maxSteps r) :
    Composed o file (conclude (emitted o.emit p).toUTF8 r) := by
  obtain ⟨output, result⟩ := r
  cases result with
  | ok n => exact .ended hs hc hr hd
  | error e => exact .aborted hs hc hr hd

/-- The answer is that of the phase in which the command ends. -/
theorem composed_iff : Composed o file a ↔ prepare o file = .ended a ∨
    ∃ front p r, prepare o file = .run front p ∧ p.Delivers o.maxSteps r ∧
      a = conclude front r := by
  constructor
  · intro h
    cases h with
    | unread hf =>
      left
      simp only [prepare, sourceOf_eq_error_iff.2 hf, failure_unread]
    | refused hs hc =>
      left
      simp only [prepare_of_holds hs, hc, failure_refused]
    | overloaded hs hc =>
      left
      simp only [prepare_of_holds hs, hc]
    | compiled hs hc hr =>
      left
      simp [prepare_of_holds hs, hc, hr]
    | ended hs hc hr hd =>
      exact .inr ⟨_, _, _, prepare_eq_run_iff.2 ⟨_, hs, hc, hr, rfl⟩, hd, rfl⟩
    | aborted hs hc hr hd =>
      exact .inr ⟨_, _, _, prepare_eq_run_iff.2 ⟨_, hs, hc, hr, rfl⟩, hd, rfl⟩
  · rintro (h | ⟨front, p, r, h, hd, rfl⟩)
    · exact composed_of_prepare h
    · obtain ⟨source, hs, hc, hr, rfl⟩ := prepare_eq_run_iff.1 h
      exact composed_of_delivers hs hc hr hd

theorem Composed.unique (h : Composed o file a) (h' : Composed o file b) : a = b := by
  rcases composed_iff.1 h with hp | ⟨front, p, r, hp, hd, rfl⟩
  · rcases composed_iff.1 h' with hp' | ⟨front', p', r', hp', -, -⟩
    · exact Phase.ended.inj (hp.symm.trans hp')
    · cases hp.symm.trans hp'
  · rcases composed_iff.1 h' with hp' | ⟨front', p', r', hp', hd', rfl⟩
    · cases hp.symm.trans hp'
    · cases hp.symm.trans hp'
      obtain ⟨source, -, hc, -, -⟩ := prepare_eq_run_iff.1 hp
      have hmarked := missingLabel?_of_compile hc
      rw [(hd.answers hmarked).unique (hd'.answers hmarked)]

end MiniPascal.Command
