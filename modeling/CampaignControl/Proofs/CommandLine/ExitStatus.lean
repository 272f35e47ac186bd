import CampaignControl.Proofs.CommandLine.Surroundings
import CampaignControl.Proofs.CommandLine.Usage

/-!
# How the program ends

On any host that serves a view of its surroundings, for all arguments and variables. `Delivered` is
what success leaves behind, and `exit_contract` says when each of the three exit statuses comes out,
and what has been changed by then. Whether the batch can be written is a question only after the
merged configuration has been.
-/

namespace CampaignControl
namespace CommandLine

variable {σ File : Type} {host : Host (StateM σ)} {view : View σ File} {s s' : σ}
  {options : Options} {output : Dispatch.Output}

/-! ## Documents -/

namespace View

/-- One of the documents cannot be read as a text. -/
def Withholds (view : View σ File) (s : σ) (options : Options) : Prop :=
  (∀ text, ¬ view.Holds s options.baseConfig text) ∨ ∀ text, ¬ view.Holds s options.batches text

/-- Both documents can be read, and merging them has this outcome. -/
def Merges (view : View σ File) (s : σ) (options : Options)
    (outcome : Except Error Dispatch.Output) : Prop :=
  ∃ base batches, view.Holds s options.baseConfig base ∧ view.Holds s options.batches batches ∧
    Dispatch.mergeTexts base batches options.index = outcome

theorem withholds_or_merges (view : View σ File) (s : σ) (options : Options) :
    view.Withholds s options ∨ ∃ outcome, view.Merges s options outcome := by
  by_cases hbase : ∃ base, view.Holds s options.baseConfig base
  · by_cases hbatches : ∃ batches, view.Holds s options.batches batches
    · obtain ⟨base, hbase⟩ := hbase
      obtain ⟨batches, hbatches⟩ := hbatches
      exact .inr ⟨_, base, batches, hbase, hbatches, rfl⟩
    · exact .inl (.inr (not_exists.1 hbatches))
  · exact .inl (.inl (not_exists.1 hbase))

/-- The path is that of the file. -/
def Names (view : View σ File) (s : σ) (path : Option String) (file : File) : Prop :=
  path.bind (view.file? s) = some file

/-- Nothing has changed but that this text is in the file of the path, if there is a path, and that
something may have been printed. -/
structure Put (view : View σ File) (s s' : σ) (path : Option String) (text : String) : Prop where
  names : ∀ given, path = some given → ∃ file, view.file? s given = some file
  named : ∀ file, view.Names s path file → view.contents? s' file = some text.toUTF8
  others : ∀ file, ¬ view.Names s path file → view.contents? s' file = view.contents? s file
  file? : view.file? s' = view.file? s

theorem put_none {text : String} (hcontents : view.contents? s' = view.contents? s)
    (hfile : view.file? s' = view.file? s) : view.Put s s' none text where
  names _ h := nomatch h
  named _ h := nomatch h
  others file _ := congrFun hcontents file
  file? := hfile

theorem Wrote.put {file : File} {path text : String} (h : view.Wrote s s' file text)
    (hfile : view.file? s path = some file) : view.Put s s' (some path) text where
  names given hgiven := ⟨file, by rwa [← Option.some_inj.1 hgiven]⟩
  named other hnames := by
    rw [Names, Option.bind_some, hfile, Option.some_inj] at hnames
    rw [← hnames, h.written]
  others other hnot := h.others other fun heq => hnot (by rw [Names, Option.bind_some, hfile, heq])
  file? := h.file?

theorem Put.names_iff {path path' : Option String} {text : String}
    (h : view.Put s s' path text) (file : File) :
    view.Names s' path' file ↔ view.Names s path' file := by
  rw [Names, Names, h.file?]

end View

/-! ## Writing -/

/-- Both texts can be written where they are asked for, the batch after the merged configuration. -/
def Admits (host : Host (StateM σ)) (view : View σ File) (s : σ) (options : Options)
    (output : Dispatch.Output) : Prop :=
  (∀ path, options.output = some path → view.CanWrite s path (Dispatch.render output.merged)) ∧
    ∀ path, options.batchOutput = some path →
      view.CanWrite ((putMerged host options output).run s).2 path (Dispatch.render output.batch)

/-- What has changed is that the merged configuration is in its file or printed, and the batch is in
its file. Where both are to be in one file, the batch is there. -/
structure Delivered (view : View σ File) (s : σ) (options : Options) (output : Dispatch.Output)
    (s' : σ) : Prop where
  names : ∀ path, options.output = some path ∨ options.batchOutput = some path →
    ∃ file, view.file? s path = some file
  printed : view.printed s' =
    view.printed s ++ if options.output = none then Dispatch.render output.merged else ""
  merged : ∀ file, view.Names s options.output file → ¬ view.Names s options.batchOutput file →
    view.contents? s' file = some (Dispatch.render output.merged).toUTF8
  batch : ∀ file, view.Names s options.batchOutput file →
    view.contents? s' file = some (Dispatch.render output.batch).toUTF8
  others : ∀ file, ¬ view.Names s options.output file → ¬ view.Names s options.batchOutput file →
    view.contents? s' file = view.contents? s file

theorem state_of_run {α : Type} {p : StateM σ α} {a : α} (h : p.run s = pure (a, s')) :
    (p.run s).2 = s' := by
  rw [h]
  rfl

/-- The batch comes after the merged configuration. -/
theorem run_write {s₁ : σ}
    (hmerged : (putMerged host options output).run s = pure (true, s₁)) :
    (write host options output).run s =
      (putBatch host options output >>= fun written =>
        pure (if written then Exit.success else .failure)).run s₁ := by
  rw [write, StateT.run_bind, hmerged, pure_bind]
  simp only [Bool.not_true, Bool.false_eq_true, if_false]
  congr 1
  refine bind_congr fun written => ?_
  cases written <;> rfl

namespace Host.Serves

theorem putMerged (h : host.Serves view) (hcan : ∀ path, options.output = some path →
      view.CanWrite s path (Dispatch.render output.merged)) :
    ∃ s', (putMerged host options output).run s = pure (true, s') ∧
      view.Put s s' options.output (Dispatch.render output.merged) ∧
      view.printed s' =
        view.printed s ++ if options.output = none then Dispatch.render output.merged else "" := by
  unfold CommandLine.putMerged
  cases hpath : options.output with
  | none =>
    obtain ⟨s', hrun, hprinted⟩ := h.prints s (Dispatch.render output.merged)
    refine ⟨s', ?_, View.put_none hprinted.contents? hprinted.file?, hprinted.printed⟩
    simp only [StateT.run_bind, hrun, pure_bind, StateT.run_pure]
  | some path =>
    obtain ⟨file, s', hfile, hrun, hwrote⟩ := h.writes (hcan path hpath)
    exact ⟨s', hrun, hwrote.put hfile, by simp [hwrote.printed]⟩

theorem putBatch (h : host.Serves view) (hcan : ∀ path, options.batchOutput = some path →
      view.CanWrite s path (Dispatch.render output.batch)) :
    ∃ s', (putBatch host options output).run s = pure (true, s') ∧
      view.Put s s' options.batchOutput (Dispatch.render output.batch) ∧
      view.printed s' = view.printed s := by
  unfold CommandLine.putBatch
  cases hpath : options.batchOutput with
  | none => exact ⟨s, rfl, View.put_none rfl rfl, rfl⟩
  | some path =>
    obtain ⟨file, s', hfile, hrun, hwrote⟩ := h.writes (hcan path hpath)
    exact ⟨s', hrun, hwrote.put hfile, hwrote.printed⟩

/-- Where both texts can be written, they are delivered. -/
theorem write_of_admits (h : host.Serves view) (hadmits : Admits host view s options output) :
    ∃ s', (write host options output).run s = pure (.success, s') ∧
      Delivered view s options output s' := by
  obtain ⟨hcan, hcan'⟩ := hadmits
  obtain ⟨s₁, hmerged, hfirst, hprinted⟩ := h.putMerged hcan
  simp only [state_of_run hmerged] at hcan'
  obtain ⟨s₂, hbatch, hsecond, hkept⟩ := h.putBatch hcan'
  refine ⟨s₂, ?_, ?_⟩
  · rw [run_write hmerged, StateT.run_bind, hbatch]
    rfl
  · exact {
      names := by
        rintro path (hpath | hpath)
        · exact hfirst.names path hpath
        · rw [← hfirst.file?]
          exact hsecond.names path hpath
      printed := hkept.trans hprinted
      merged := fun file hnames hnot =>
        (hsecond.others file (mt (hfirst.names_iff file).1 hnot)).trans (hfirst.named file hnames)
      batch := fun file hnames => hsecond.named file ((hfirst.names_iff file).2 hnames)
      others := fun file hnot hnot' =>
        (hsecond.others file (mt (hfirst.names_iff file).1 hnot')).trans (hfirst.others file hnot) }

/-- Where one of them cannot be written, the program fails. -/
theorem write_of_not_admits (h : host.Serves view) (hnot : ¬ Admits host view s options output) :
    ((write host options output).run s).1 = .failure := by
  by_cases hcan : ∀ path, options.output = some path →
      view.CanWrite s path (Dispatch.render output.merged)
  · obtain ⟨s₁, hmerged, -⟩ := h.putMerged hcan
    obtain ⟨path, hpath, hrefused⟩ : ∃ path, options.batchOutput = some path ∧
        ¬ view.CanWrite s₁ path (Dispatch.render output.batch) := by
      simp only [Admits, state_of_run hmerged, not_and, not_forall, exists_prop] at hnot
      exact hnot hcan
    obtain ⟨s₂, hbatch⟩ := h.refuses hrefused
    rw [run_write hmerged, CommandLine.putBatch, hpath, StateT.run_bind]
    simp only [hbatch]
    rfl
  · obtain ⟨path, hpath, hrefused⟩ : ∃ path, options.output = some path ∧
        ¬ view.CanWrite s path (Dispatch.render output.merged) := by
      simpa only [not_forall, exists_prop] using hcan
    obtain ⟨s₁, hmerged⟩ := h.refuses hrefused
    simp only [write, CommandLine.putMerged, StateT.run_bind, hpath, hmerged, pure_bind]
    rfl

/-! ## Dispatching -/

theorem dispatch_of_withholds (h : host.Serves view) (hwithholds : view.Withholds s options) :
    (dispatch host options).run s = pure (.failure, s) := by
  by_cases hbase : ∃ base, view.Holds s options.baseConfig base
  · obtain ⟨base, hbase⟩ := hbase
    have hbatches := hwithholds.resolve_left fun hnot => hnot base hbase
    simp only [dispatch, StateT.run_bind, h.reads hbase, h.withholds hbatches, pure_bind]
    rfl
  · simp only [dispatch, StateT.run_bind, h.withholds (not_exists.1 hbase), pure_bind]
    rfl

theorem dispatch_of_error {error : Error} (h : host.Serves view)
    (hmerges : view.Merges s options (.error error)) :
    (dispatch host options).run s = pure (.refusal, s) := by
  obtain ⟨base, batches, hbase, hbatches, hmerge⟩ := hmerges
  simp only [dispatch, StateT.run_bind, h.reads hbase, h.reads hbatches, pure_bind, hmerge]
  rfl

theorem dispatch_of_ok (h : host.Serves view) (hmerges : view.Merges s options (.ok output)) :
    (dispatch host options).run s = (write host options output).run s := by
  obtain ⟨base, batches, hbase, hbatches, hmerge⟩ := hmerges
  simp only [dispatch, StateT.run_bind, h.reads hbase, h.reads hbatches, pure_bind, hmerge]

end Host.Serves

/-! ## Runs -/

/-- The program on a host. -/
def run (host : Host (StateM σ)) (arguments : List String) (env : Environment) (s : σ) : Exit × σ :=
  ((Invocation.ofArguments arguments env).perform host).run s

/-- Nothing that the arguments and variables say can be understood. -/
def Misuses (arguments : List String) (env : Environment) : Prop :=
  ¬ Reads [] arguments .version ∧ ¬ Reads [] arguments .help ∧
    ∀ options, ¬ Requests arguments env options

/-- How the program ends, and what it leaves behind. -/
inductive Ends (host : Host (StateM σ)) (view : View σ File) (arguments : List String)
    (env : Environment) (s : σ) : Exit × σ → Prop where
  | version {s' : σ} : Reads [] arguments .version → view.Printed s s' versionText →
      Ends host view arguments env s (.success, s')
  | help {s' : σ} : Reads [] arguments .help → view.Printed s s' (helpText env) →
      Ends host view arguments env s (.success, s')
  | misuse : Misuses arguments env → Ends host view arguments env s (.refusal, s)
  | withheld {options : Options} : Requests arguments env options → view.Withholds s options →
      Ends host view arguments env s (.failure, s)
  | rejected {options : Options} {error : Error} : Requests arguments env options →
      view.Merges s options (.error error) → Ends host view arguments env s (.refusal, s)
  | delivered {options : Options} {output : Dispatch.Output} {s' : σ} :
      Requests arguments env options → view.Merges s options (.ok output) →
      Admits host view s options output → Delivered view s options output s' →
      Ends host view arguments env s (.success, s')
  | unwritten {options : Options} {output : Dispatch.Output} {s' : σ} :
      Requests arguments env options → view.Merges s options (.ok output) →
      ¬ Admits host view s options output → Ends host view arguments env s (.failure, s')

variable {arguments : List String} {env : Environment}

theorem run_of_misuses (h : Misuses arguments env) : run host arguments env s = (.refusal, s) := by
  rw [run, ofArguments_misuse_iff.2 h]
  rfl

theorem run_of_requests (h : Requests arguments env options) :
    run host arguments env s = (dispatch host options).run s := by
  rw [run, ofArguments_dispatch_iff.2 h]
  rfl

namespace Host.Serves

theorem run_of_version (h : host.Serves view) (hreads : Reads [] arguments .version) :
    ∃ s', run host arguments env s = (.success, s') ∧ view.Printed s s' versionText := by
  obtain ⟨s', hrun, hprinted⟩ := h.prints s versionText
  refine ⟨s', ?_, hprinted⟩
  rw [run, ofArguments_version_iff.2 hreads, Invocation.perform, StateT.run_bind, hrun]
  rfl

theorem run_of_help (h : host.Serves view) (hreads : Reads [] arguments .help) :
    ∃ s', run host arguments env s = (.success, s') ∧ view.Printed s s' (helpText env) := by
  obtain ⟨s', hrun, hprinted⟩ := h.prints s (helpText env)
  refine ⟨s', ?_, hprinted⟩
  rw [run, ofArguments_help_iff.2 hreads, Invocation.perform, StateT.run_bind, hrun]
  rfl

theorem ends_run (h : host.Serves view) (arguments : List String) (env : Environment) (s : σ) :
    Ends host view arguments env s (run host arguments env s) := by
  cases hasked : Invocation.ofArguments arguments env with
  | misuse =>
    rw [run_of_misuses (ofArguments_misuse_iff.1 hasked)]
    exact .misuse (ofArguments_misuse_iff.1 hasked)
  | version =>
    obtain ⟨s', hrun, hprinted⟩ := h.run_of_version (ofArguments_version_iff.1 hasked)
    rw [hrun]
    exact .version (ofArguments_version_iff.1 hasked) hprinted
  | help env' =>
    cases env_of_ofArguments_help hasked
    obtain ⟨s', hrun, hprinted⟩ := h.run_of_help (ofArguments_help_iff.1 hasked)
    rw [hrun]
    exact .help (ofArguments_help_iff.1 hasked) hprinted
  | dispatch options =>
    have hrequests := ofArguments_dispatch_iff.1 hasked
    rw [run_of_requests hrequests]
    obtain hwithholds | ⟨error | output, hmerges⟩ := view.withholds_or_merges s options
    · rw [h.dispatch_of_withholds hwithholds]
      exact .withheld hrequests hwithholds
    · rw [h.dispatch_of_error hmerges]
      exact .rejected hrequests hmerges
    · rw [h.dispatch_of_ok hmerges]
      by_cases hadmits : Admits host view s options output
      · obtain ⟨s', hwrite, hdelivered⟩ := h.write_of_admits hadmits
        rw [hwrite]
        exact .delivered hrequests hmerges hadmits hdelivered
      · have hfailed := h.write_of_not_admits hadmits
        rw [← Prod.mk.eta (p := (write host options output).run s), hfailed]
        exact .unwritten hrequests hmerges hadmits

theorem success_iff (h : host.Serves view) :
    (run host arguments env s).1 = .success ↔
      Reads [] arguments .version ∨ Reads [] arguments .help ∨
        ∃ options output, Requests arguments env options ∧ view.Merges s options (.ok output) ∧
          Admits host view s options output := by
  constructor
  · intro hsuccess
    have hends := h.ends_run arguments env s
    generalize run host arguments env s = ended at hsuccess hends
    cases hends with
    | version hreads => exact .inl hreads
    | help hreads => exact .inr (.inl hreads)
    | delivered hrequests hmerges hadmits _ => exact .inr (.inr ⟨_, _, hrequests, hmerges, hadmits⟩)
    | misuse | withheld | rejected | unwritten => cases hsuccess
  · rintro (hreads | hreads | ⟨options, output, hrequests, hmerges, hadmits⟩)
    · obtain ⟨s', hrun, -⟩ := h.run_of_version hreads
      rw [hrun]
    · obtain ⟨s', hrun, -⟩ := h.run_of_help hreads
      rw [hrun]
    · obtain ⟨s', hwrite, -⟩ := h.write_of_admits hadmits
      rw [run_of_requests hrequests, h.dispatch_of_ok hmerges, hwrite]
      rfl

theorem failure_iff (h : host.Serves view) :
    (run host arguments env s).1 = .failure ↔
      ∃ options, Requests arguments env options ∧
        (view.Withholds s options ∨
          ∃ output, view.Merges s options (.ok output) ∧ ¬ Admits host view s options output) := by
  constructor
  · intro hfailure
    have hends := h.ends_run arguments env s
    generalize run host arguments env s = ended at hfailure hends
    cases hends with
    | withheld hrequests hwithholds => exact ⟨_, hrequests, .inl hwithholds⟩
    | unwritten hrequests hmerges hnot => exact ⟨_, hrequests, .inr ⟨_, hmerges, hnot⟩⟩
    | version | help | misuse | rejected | delivered => cases hfailure
  · rintro ⟨options, hrequests, hwithholds | ⟨output, hmerges, hnot⟩⟩
    · rw [run_of_requests hrequests, h.dispatch_of_withholds hwithholds]
      rfl
    · rw [run_of_requests hrequests, h.dispatch_of_ok hmerges, h.write_of_not_admits hnot]

theorem refusal_iff (h : host.Serves view) :
    (run host arguments env s).1 = .refusal ↔
      Misuses arguments env ∨
        ∃ options error, Requests arguments env options ∧
          view.Merges s options (.error error) := by
  constructor
  · intro hrefusal
    have hends := h.ends_run arguments env s
    generalize run host arguments env s = ended at hrefusal hends
    cases hends with
    | misuse hmisuses => exact .inl hmisuses
    | rejected hrequests hmerges => exact .inr ⟨_, _, hrequests, hmerges⟩
    | version | help | withheld | delivered | unwritten => cases hrefusal
  · rintro (hmisuses | ⟨options, error, hrequests, hmerges⟩)
    · rw [run_of_misuses hmisuses]
    · rw [run_of_requests hrequests, h.dispatch_of_error hmerges]
      rfl

/-- A refusal changes nothing. -/
theorem run_of_refusal (h : host.Serves view)
    (hrefusal : (run host arguments env s).1 = .refusal) :
    (run host arguments env s).2 = s := by
  have hends := h.ends_run arguments env s
  generalize run host arguments env s = ended at hrefusal hends
  cases hends with
  | misuse | rejected => rfl
  | version | help | withheld | delivered | unwritten => cases hrefusal

end Host.Serves

theorem Exit.status_eq_iff (exit exit' : Exit) : exit.status = exit'.status ↔ exit = exit' := by
  cases exit <;> cases exit' <;> decide

/-- **The exit status.** On every host that serves a view, for all arguments, variables and states
of the surroundings, it is 0, 1 or 2, and each of them says what has happened. -/
theorem exit_contract (h : host.Serves view) (arguments : List String) (env : Environment) (s : σ) :
    ((run host arguments env s).1.status = 0 ∨ (run host arguments env s).1.status = 1 ∨
      (run host arguments env s).1.status = 2) ∧
    ((run host arguments env s).1.status = 0 ↔
      Reads [] arguments .version ∨ Reads [] arguments .help ∨
        ∃ options output, Requests arguments env options ∧ view.Merges s options (.ok output) ∧
          Admits host view s options output) ∧
    (Reads [] arguments .version → view.Printed s (run host arguments env s).2 versionText) ∧
    (Reads [] arguments .help → view.Printed s (run host arguments env s).2 (helpText env)) ∧
    (∀ options output, Requests arguments env options → view.Merges s options (.ok output) →
      Admits host view s options output →
        Delivered view s options output (run host arguments env s).2) ∧
    ((run host arguments env s).1.status = 2 → (run host arguments env s).2 = s) ∧
    ((run host arguments env s).1.status = 2 ↔
      Misuses arguments env ∨
        ∃ options error, Requests arguments env options ∧ view.Merges s options (.error error)) ∧
    ((run host arguments env s).1.status = 1 ↔
      ∃ options, Requests arguments env options ∧
        (view.Withholds s options ∨
          ∃ output, view.Merges s options (.ok output) ∧
            ¬ Admits host view s options output)) := by
  refine ⟨?_, ?_, ?_, ?_, ?_, ?_, ?_, ?_⟩
  · cases (run host arguments env s).1 <;> decide
  · exact (Exit.status_eq_iff _ .success).trans h.success_iff
  · intro hreads
    obtain ⟨s', hrun, hprinted⟩ := h.run_of_version hreads
    rwa [hrun]
  · intro hreads
    obtain ⟨s', hrun, hprinted⟩ := h.run_of_help hreads
    rwa [hrun]
  · intro options output hrequests hmerges hadmits
    obtain ⟨s', hwrite, hdelivered⟩ := h.write_of_admits hadmits
    rw [run_of_requests hrequests, h.dispatch_of_ok hmerges, hwrite]
    exact hdelivered
  · exact fun hrefusal => h.run_of_refusal ((Exit.status_eq_iff _ .refusal).1 hrefusal)
  · exact (Exit.status_eq_iff _ .refusal).trans h.refusal_iff
  · exact (Exit.status_eq_iff _ .failure).trans h.failure_iff

/-- A tree with a base configuration, another that is cut off, one batch, and an empty directory. -/
def sampleDirectory : Directory where
  files := [(["base.json"], "\x7b\"a\":[]\x7d".toUTF8), (["cut.json"], "\x7b".toUTF8),
    (["batches.json"], "[\x7b\x7d]".toUTF8)]
  folders := [["out"]]

/-- Arguments for this tree, with these paths of the base configuration and for the outputs. -/
def sampleArguments (baseConfig output batchOutput : String) : List String :=
  ["--base-config=" ++ baseConfig, "--batches", "batches.json", "--index", "0",
    "--output=" ++ output, "--batch-output=" ++ batchOutput]

/-- What these arguments ask for. -/
def sampleOptions (baseConfig output batchOutput : String) : Options where
  baseConfig := baseConfig
  batches := "batches.json"
  index := 0
  output := some output
  batchOutput := some batchOutput

/-- What is merged in this tree. -/
def sampleOutput : Dispatch.Output where
  merged := .object [("a", .array [])]
  batch := .object []

/-- The base configuration by an absolute path, and files in a directory that has been empty. -/
theorem exit_contract_sample :
    Directory.host.Serves Directory.view ∧
    (run Directory.host (sampleArguments "/base.json" "out/config.json" "out/../out/batch.json") []
      sampleDirectory).1.status = 0 ∧
    Delivered Directory.view sampleDirectory
      (sampleOptions "/base.json" "out/config.json" "out/../out/batch.json") sampleOutput
      (run Directory.host (sampleArguments "/base.json" "out/config.json" "out/../out/batch.json")
        [] sampleDirectory).2 := by
  have hcontract := exit_contract Directory.serves
    (sampleArguments "/base.json" "out/config.json" "out/../out/batch.json") [] sampleDirectory
  have hrequests : Requests
      (sampleArguments "/base.json" "out/config.json" "out/../out/batch.json") []
      (sampleOptions "/base.json" "out/config.json" "out/../out/batch.json") :=
    ofArguments_dispatch_iff.1 (by decide +kernel)
  have hmerges : Directory.view.Merges sampleDirectory
      (sampleOptions "/base.json" "out/config.json" "out/../out/batch.json") (.ok sampleOutput) :=
    ⟨"\x7b\"a\":[]\x7d", "[\x7b\x7d]", Directory.holds_iff.2 (by decide +kernel),
      Directory.holds_iff.2 (by decide +kernel), by cbv⟩
  have hadmits : Admits Directory.host Directory.view sampleDirectory
      (sampleOptions "/base.json" "out/config.json" "out/../out/batch.json") sampleOutput := by
    constructor
    · rintro path ⟨⟩
      exact ⟨["out", "config.json"], by decide +kernel, by decide +kernel, by decide +kernel⟩
    · rintro path ⟨⟩
      exact ⟨["out", "batch.json"], by decide +kernel, by decide +kernel, by decide +kernel⟩
  exact ⟨Directory.serves, hcontract.2.1.2 (.inr (.inr ⟨_, _, hrequests, hmerges, hadmits⟩)),
    hcontract.2.2.2.2.1 _ _ hrequests hmerges hadmits⟩

/-- Success takes no options where the version is asked for; it does not leave the merged
configuration in its file where the batch is written there too; and a file that could not be
written does not matter where the documents are refused. -/
theorem exit_contract_limits :
    ((run Directory.host ["--version"] [] sampleDirectory).1.status = 0 ∧
      ∀ options, ¬ Requests ["--version"] [] options) ∧
    (Requests (sampleArguments "base.json" "out.json" "out.json") []
        (sampleOptions "base.json" "out.json" "out.json") ∧
      Directory.view.Merges sampleDirectory (sampleOptions "base.json" "out.json" "out.json")
        (.ok sampleOutput) ∧
      (run Directory.host (sampleArguments "base.json" "out.json" "out.json") []
        sampleDirectory).1.status = 0 ∧
      Directory.view.contents? (run Directory.host
          (sampleArguments "base.json" "out.json" "out.json") [] sampleDirectory).2 ["out.json"] ≠
        some (Dispatch.render sampleOutput.merged).toUTF8) ∧
    (Requests (sampleArguments "cut.json" "no/out.json" "batch.json") []
        (sampleOptions "cut.json" "no/out.json" "batch.json") ∧
      (∀ text, ¬ Directory.view.CanWrite sampleDirectory "no/out.json" text) ∧
      (run Directory.host (sampleArguments "cut.json" "no/out.json" "batch.json") []
        sampleDirectory).1.status ≠ 1) := by
  refine ⟨⟨by decide +kernel, fun options h => ?_⟩, ⟨?_, ⟨"\x7b\"a\":[]\x7d", "[\x7b\x7d]",
    Directory.holds_iff.2 (by decide +kernel), Directory.holds_iff.2 (by decide +kernel), ?_⟩,
    by decide +kernel, by decide +kernel⟩, ⟨?_, ?_, by decide +kernel⟩⟩
  · have hversion : Invocation.ofArguments ["--version"] [] = .version := by decide +kernel
    rw [← ofArguments_dispatch_iff, hversion] at h
    cases h
  · exact ofArguments_dispatch_iff.1 (by decide +kernel)
  · cbv
  · exact ofArguments_dispatch_iff.1 (by decide +kernel)
  · rintro text ⟨file, hlocate, hplace, -⟩
    have hfile : sampleDirectory.locate? "no/out.json" = some ["no", "out.json"] := by
      decide +kernel
    cases hfile.symm.trans hlocate
    exact absurd hplace (by decide +kernel)

end CommandLine
end CampaignControl
