import DefLang.Command
import DefLang.Proofs.Drawing

namespace DefLang
open Text

namespace Text

theorem getLast?_append_feed (s : String) : (s ++ "\n").toList.getLast? = some '\n' := by
  have hfeed : "\n".toList = ['\n'] := rfl
  rw [String.toList_append, hfeed, List.getLast?_concat]

theorem fromUTF8?_eq_some_iff (bytes : ByteArray) (source : String) :
    String.fromUTF8? bytes = some source ↔ bytes = source.toUTF8 := by
  unfold String.fromUTF8?
  refine ⟨fun h => ?_, fun h => ?_⟩
  · split at h
    next =>
      obtain rfl := Option.some.inj h
      rfl
    next => cases h
  · subst h
    rw [String.toUTF8_eq_toByteArray, dif_pos source.isValidUTF8]
    rfl

theorem toUTF8_injective : Function.Injective String.toUTF8 :=
  fun _ _ h => String.toByteArray_inj.mp h

theorem mapM_fromUTF8?_eq_some_iff (args : List ByteArray) (texts : List String) :
    args.mapM String.fromUTF8? = some texts ↔ args = texts.map String.toUTF8 := by
  induction args generalizing texts with
  | nil => cases texts <;> simp
  | cons arg args ih => cases texts <;> simp [Option.bind_eq_some_iff, fromUTF8?_eq_some_iff, ih]

theorem mapM_fromUTF8?_eq_none_iff (args : List ByteArray) :
    args.mapM String.fromUTF8? = none ↔ ∃ arg ∈ args, String.fromUTF8? arg = none := by
  induction args with
  | nil => simp
  | cons arg args ih =>
    cases h : String.fromUTF8? arg with
    | none => simp [h]
    | some text =>
      simp only [List.mapM_cons, h, List.mem_cons, exists_eq_or_imp, reduceCtorEq, false_or, ← ih]
      cases args.mapM String.fromUTF8? <;> simp

end Text

theorem Diagnostic.getLast?_of_draw? {d : Diagnostic} {source text : String}
    (h : d.draw? source = some text) : text.toList.getLast? = some '\n' := by
  unfold draw? at h
  split at h
  next =>
    obtain rfl := Option.some.inj h
    exact getLast?_append_feed _
  next =>
    split at h
    next => cases h
    next =>
      obtain rfl := Option.some.inj h
      exact getLast?_append_feed _

namespace Outcome

/-- Nothing is left but lines of errors. -/
structure Failed (o : Outcome) : Prop where
  code_eq : o.code = 1
  output_eq : o.output = ""
  errors_eq : o.errors.toList.getLast? = some '\n'

theorem failed_unreadable (name reason : String) : (unreadable name reason).Failed where
  code_eq := rfl
  output_eq := rfl
  errors_eq := getLast?_append_feed _

theorem Failed.errors_ne {o : Outcome} (h : o.Failed) : o.errors ≠ "" := by
  intro h0
  have hlast := h.errors_eq
  rw [h0] at hlast
  cases hlast

theorem ofContents?_of_script (name : String) {source script : String}
    (h : compile source = .ok script) :
    ofContents? name (.ok source.toUTF8) =
      some { output := script ++ "\n", errors := "", code := 0 } := by
  simp only [ofContents?, (fromUTF8?_eq_some_iff _ source).mpr rfl, h]

theorem exists_failed_of_ofContents? (name : String) {contents : Except ReadError ByteArray}
    (hsize : ∀ source : String, contents = .ok source.toUTF8 → source.utf8ByteSize < 4294967295)
    (h : ∀ source script, contents = .ok source.toUTF8 → compile source ≠ .ok script) :
    ∃ o, ofContents? name contents = some o ∧ o.Failed := by
  cases contents with
  | error e => exact ⟨_, rfl, failed_unreadable name e.message⟩
  | ok bytes =>
    cases hs : String.fromUTF8? bytes with
    | none =>
      simp only [ofContents?, hs]
      exact ⟨_, rfl, failed_unreadable name _⟩
    | some source =>
      have hbytes := (fromUTF8?_eq_some_iff bytes source).mp hs
      cases hc : compile source with
      | ok script => exact (h source script (congrArg _ hbytes) hc).elim
      | error e =>
        have hlt := hsize source (congrArg _ hbytes)
        obtain ⟨_, _, _, _, _, _, d, _, hd⟩ := exists_drawn_of_compile_error hlt hc
        refine ⟨failed _, ?_, rfl, rfl, Diagnostic.getLast?_of_draw? hd.draw?_eq⟩
        simp only [ofContents?, hs, hc, hd.ofFailure?_eq, hd.draw?_eq, Option.bind_eq_bind,
          Option.bind_some]
        rfl

end Outcome

namespace Command

/-- What is read for the texts of the arguments. Two arguments or more choose nothing. -/
inductive Chosen (read : String → Except ReadError ByteArray) (input : ByteArray) :
    List String → Except ReadError ByteArray → Prop where
  | byDefault : Chosen read input [] (read "test.src")
  | standardInput : Chosen read input ["-"] (.ok input)
  | file {path : String} (h : path ≠ "-") : Chosen read input [path] (read path)

theorem run?_eq (args : List String) (read : String → Except ReadError ByteArray)
    (input : ByteArray) :
    run? args read input =
      match Request.ofArgs args with
      | .usage => some (Outcome.failed usage)
      | .standardInput => Outcome.ofContents? "-" (.ok input)
      | .file path => Outcome.ofContents? path (read path) := by
  have htexts := (mapM_fromUTF8?_eq_some_iff (args.map String.toUTF8) args).mpr rfl
  simp only [run?, runBytes?, runWith, htexts]
  cases Request.ofArgs args <;> rfl

theorem runBytes?_eq_none {args : List ByteArray} (read : String → Except ReadError ByteArray)
    (input : ByteArray) (h : ∃ arg ∈ args, String.fromUTF8? arg = none) :
    runBytes? args read input = none := by
  have hnone := (mapM_fromUTF8?_eq_none_iff args).mpr h
  simp only [runBytes?, runWith, hnone]
  rfl

section
variable {read : String → Except ReadError ByteArray} {input : ByteArray} {args : List String}

theorem Chosen.eq {contents other : Except ReadError ByteArray}
    (h : Chosen read input args contents) (h' : Chosen read input args other) :
    contents = other := by
  cases h with
  | byDefault => cases h'; rfl
  | standardInput =>
    cases h' with
    | standardInput => rfl
    | file hpath => exact (hpath rfl).elim
  | file hpath =>
    cases h' with
    | standardInput => exact (hpath rfl).elim
    | file _ => rfl

theorem Chosen.exists_run?_eq {contents : Except ReadError ByteArray}
    (h : Chosen read input args contents) :
    ∃ name, run? args read input = Outcome.ofContents? name contents := by
  simp only [run?_eq]
  cases h with
  | byDefault => exact ⟨"test.src", rfl⟩
  | standardInput => exact ⟨"-", rfl⟩
  | @file path hpath =>
    have hreq : Request.ofArgs [path] = .file path := if_neg hpath
    exact ⟨path, by rw [hreq]⟩

theorem chosen_or_run?_eq (read : String → Except ReadError ByteArray) (input : ByteArray)
    (args : List String) :
    (args.length ≤ 1 ∧ ∃ contents, Chosen read input args contents) ∨
      ((∀ contents, ¬ Chosen read input args contents) ∧
        run? args read input = some (Outcome.failed usage)) := by
  match args with
  | [] => exact .inl ⟨Nat.zero_le 1, _, .byDefault⟩
  | [path] =>
    by_cases hpath : path = "-"
    · subst hpath
      exact .inl ⟨le_rfl, _, .standardInput⟩
    · exact .inl ⟨le_rfl, _, .file hpath⟩
  | _ :: _ :: _ => exact .inr ⟨fun _ h => (nomatch h), run?_eq ..⟩

/-- A run prints a script if the arguments choose a text that has one, and otherwise fails. -/
theorem run?_cases
    (hsize : ∀ source : String, Chosen read input args (.ok source.toUTF8) →
      source.utf8ByteSize < 4294967295) :
    (args.length ≤ 1 ∧ ∃ source script, Chosen read input args (.ok source.toUTF8) ∧
        compile source = .ok script ∧
        run? args read input = some { output := script ++ "\n", errors := "", code := 0 }) ∨
      (∀ source script, Chosen read input args (.ok source.toUTF8) →
        compile source ≠ .ok script) ∧
      ∃ o, run? args read input = some o ∧ o.Failed := by
  obtain ⟨hlen, contents, hchosen⟩ | ⟨hnone, hrun⟩ := chosen_or_run?_eq read input args
  · obtain ⟨name, hrun⟩ := hchosen.exists_run?_eq
    rw [hrun]
    by_cases hs : ∃ source script, contents = .ok source.toUTF8 ∧ compile source = .ok script
    · obtain ⟨source, script, rfl, hc⟩ := hs
      exact .inl ⟨hlen, source, script, hchosen, hc, Outcome.ofContents?_of_script name hc⟩
    · have hno : ∀ source script, contents = .ok source.toUTF8 → compile source ≠ .ok script :=
        fun source script hcontents hc => hs ⟨source, script, hcontents, hc⟩
      refine .inr ⟨fun source script h => hno source script (hchosen.eq h), ?_⟩
      apply Outcome.exists_failed_of_ofContents? name _ hno
      rintro source rfl
      exact hsize source hchosen
  · exact .inr ⟨fun source _ h => (hnone _ h).elim, _, hrun, rfl, rfl, by decide⟩

end

/-- A run has an outcome unless an argument is no text. It leaves the script of the chosen text on
the output, or errors only. -/
theorem run_reports_all_or_nothing (args : List ByteArray)
    (read : String → Except ReadError ByteArray) (input : ByteArray)
    (hsize : ∀ (texts : List String) (source : String), args = texts.map String.toUTF8 →
      Chosen read input texts (.ok source.toUTF8) → source.utf8ByteSize < 4294967295) :
    (runBytes? args read input = none ↔ ∃ arg ∈ args, String.fromUTF8? arg = none) ∧
      ∀ texts : List String, args = texts.map String.toUTF8 →
        ∃ outcome, runBytes? args read input = some outcome ∧
          (outcome.code = 0 ↔ args.length ≤ 1 ∧ ∃ source script,
            Chosen read input texts (.ok source.toUTF8) ∧ compile source = .ok script) ∧
          (∀ source script, Chosen read input texts (.ok source.toUTF8) →
            compile source = .ok script →
              outcome.output = script ++ "\n" ∧ outcome.errors = "") ∧
          (outcome.code ≠ 0 → outcome.code = 1 ∧ outcome.output = "" ∧ outcome.errors ≠ "" ∧
            outcome.errors.toList.getLast? = some '\n') := by
  have hcases := fun (texts : List String) (htexts : args = texts.map String.toUTF8) =>
    @run?_cases read input texts fun source => hsize texts source htexts
  refine ⟨⟨fun hnone => ?_, runBytes?_eq_none read input⟩, ?_⟩
  · cases hm : args.mapM String.fromUTF8? with
    | none => exact (mapM_fromUTF8?_eq_none_iff args).mp hm
    | some texts =>
      obtain rfl := (mapM_fromUTF8?_eq_some_iff args texts).mp hm
      obtain ⟨_, _, _, _, _, hrun⟩ | ⟨_, o, hrun, _⟩ := hcases texts rfl
      · cases hnone.symm.trans hrun
      · cases hnone.symm.trans hrun
  · rintro texts rfl
    rw [List.length_map]
    obtain ⟨hlen, source, script, hchosen, hc, hrun⟩ | ⟨hnone, o, hrun, hfailed⟩ := hcases texts rfl
    · refine ⟨_, hrun, iff_of_true rfl ⟨hlen, source, script, hchosen, hc⟩, ?_,
        fun hcode => (hcode rfl).elim⟩
      intro source' script' hchosen' hc'
      obtain rfl := toUTF8_injective (Except.ok.inj (hchosen'.eq hchosen))
      obtain rfl := Except.ok.inj (hc'.symm.trans hc)
      exact ⟨rfl, rfl⟩
    · have hcode : o.code ≠ 0 := by
        rw [hfailed.code_eq]
        decide
      refine ⟨o, hrun, iff_of_false hcode ?_, ?_, fun _ =>
        ⟨hfailed.code_eq, hfailed.output_eq, hfailed.errors_ne, hfailed.errors_eq⟩⟩
      · rintro ⟨_, source, script, hchosen, hc⟩
        exact hnone source script hchosen hc
      · intro source script hchosen hc
        exact (hnone source script hchosen hc).elim

theorem run_reports_missing_comma :
    (∀ (texts : List String) (source : String), ["-".toUTF8] = texts.map String.toUTF8 →
        Chosen (Directory.read ⟨[]⟩) missingCommaSource.toUTF8 texts (.ok source.toUTF8) →
          source.utf8ByteSize < 4294967295) ∧
      ∃ outcome, runBytes? ["-".toUTF8] (Directory.read ⟨[]⟩) missingCommaSource.toUTF8 =
          some outcome ∧
        outcome.code = 1 ∧ outcome.output = "" ∧ outcome.errors ≠ "" ∧
        outcome.errors.toList.getLast? = some '\n' := by
  have hchosen : ∀ source : String, Chosen (Directory.read ⟨[]⟩) missingCommaSource.toUTF8 ["-"]
      (.ok source.toUTF8) → source = missingCommaSource :=
    fun source h => toUTF8_injective (Except.ok.inj (h.eq .standardInput))
  have hsize : ∀ (texts : List String) (source : String),
      ["-".toUTF8] = texts.map String.toUTF8 →
        Chosen (Directory.read ⟨[]⟩) missingCommaSource.toUTF8 texts (.ok source.toUTF8) →
          source.utf8ByteSize < 4294967295 := by
    intro texts source htexts h
    obtain rfl : ["-"] = texts := (List.map_inj_right toUTF8_injective).mp htexts
    rw [hchosen source h]
    decide
  obtain ⟨_, hreports⟩ := run_reports_all_or_nothing _ _ _ hsize
  obtain ⟨outcome, hrun, hcode, _, hfailed⟩ := hreports ["-"] rfl
  have hne : outcome.code ≠ 0 := by
    rw [Ne, hcode]
    rintro ⟨_, source, script, h, hc⟩
    rw [hchosen source h] at hc
    cases hc
  exact ⟨hsize, outcome, hrun, hfailed hne⟩

/-- The byte 255 stands in no text. -/
theorem stray_argument_has_no_outcome :
    runBytes? [⟨#[255]⟩] (Directory.read ⟨[]⟩) missingCommaSource.toUTF8 = none :=
  runBytes?_eq_none _ _ ⟨_, List.mem_singleton_self _, by decide⟩

end Command

end DefLang
