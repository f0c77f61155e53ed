import SchemaEvolution.Command.Response
import SchemaEvolution.Proofs.ChainOrder
import SchemaEvolution.Proofs.CommandLine
import SchemaEvolution.Proofs.Folder
import SchemaEvolution.Proofs.Totality

/-!
# The commands accept the same schemas and fail cleanly

Every command first reads and compiles its schema, and what comes of that does not depend on the
command. So they succeed together, and what one writes of a failure the others write too; only the
history of a type has its name looked up in addition. Where compiling fails, the log ends before the
graph is begun, so the number of workers does not show in it. Whatever fails writes nothing but its
failure and the log, and leaves all files as they are, and a document that goes to a file is the one
that is written otherwise.

## Main definitions

* `FileAccess.answer`: the response to a line and the files behind it
* `FileAccess.IsClean`: reading and writes that fail change nothing
* `FileAccess.Compiles`: a file holds a schema that compiles
* `Invocation.loaded`, `Invocation.logOf`: what comes of reading and compiling a schema, and its log

## Main results

* `Compilation.exists_typeHistory_iff`: which types have a history
* `Invocation.logOf_of_error`: the log of a schema that does not compile
* `Invocation.code_check`, `Invocation.code_compile`, `Invocation.code_history`: when commands
  succeed
* `Invocation.run_compile_of_check`: what fails of a check fails of compiling
* `FileAccess.answer_of_code_one`: what fails changes nothing
* `FileAccess.commands_coherent`: the three commands agree
-/

namespace SchemaEvolution

/-! ## Histories -/

namespace Compilation

variable {c : Compilation} {config : Config} {workers : Nat}

/-- **A type has a history** exactly if its spelling is read as a name of the graph. -/
theorem exists_typeHistory_iff (h : config.compile workers = .ok c) (spelling : String) :
    (∃ history, c.typeHistory spelling = .ok history) ↔
      ∃ ref, TypeRef.parse spelling = .ok ref ∧ c.graph.IsName ref.canonical := by
  have hc := sound_of_compile h
  have hlinked : c.chain.Linked := Chain.linked_of_ofDefinition (Config.accepts_of_compile h).chain
  constructor
  · rintro ⟨history, hhistory⟩
    obtain ⟨ref, href, hhistory⟩ := bind_eq_ok.mp hhistory
    obtain ⟨spans, hspans, -⟩ := bind_eq_ok.mp hhistory
    refine ⟨ref, href, ?_⟩
    cases hversions : c.chain.versions with
    | nil =>
      have hsize : 0 < c.chain.versions.length := hc.schema.chain.nonempty
      simp [hversions] at hsize
    | cons version rest =>
      rw [hversions, List.foldlM_cons, bind_assoc] at hspans
      obtain ⟨node, hnode, -⟩ := bind_eq_ok.mp hspans
      obtain ⟨id, hid, -⟩ := Graph.nodeAt_eq_ok_iff.mp hnode
      exact ⟨version.index, Index.mem_names_of_node? hid⟩
  · rintro ⟨ref, href, hname⟩
    have hmem := (hc.graph.isName_iff hc.schema).mp hname
    have hnode : ∀ version ∈ c.chain.versions,
        ∃ node, c.graph.nodeAt ref.canonical version.index = .ok node := by
      intro version hversion
      obtain ⟨place, hplace⟩ := List.mem_iff_getElem?.mp hversion
      have hindex : version.index = place := hlinked.index hplace
      have hlt : place < c.chain.size := (List.getElem?_eq_some_iff.mp hplace).1
      obtain ⟨node, hnode, -⟩ := hc.graph.exists_nodeAt (hindex ▸ hlt) hmem
      exact ⟨node, hnode⟩
    obtain ⟨spans, hspans⟩ : ∃ spans, c.chain.versions.foldlM (fun spans version => do
        let node ← c.graph.nodeAt ref.canonical version.index
        return NodeSpan.extend node version.name spans) [] = .ok spans := by
      refine exists_foldlM_eq_ok (fun version hversion spans => ?_) []
      obtain ⟨node, hnode⟩ := hnode version hversion
      exact ⟨_, bind_eq_ok.mpr ⟨node, hnode, rfl⟩⟩
    exact ⟨_, bind_eq_ok.mpr ⟨ref, href, bind_eq_ok.mpr ⟨spans, hspans, rfl⟩⟩⟩

end Compilation

/-! ## The log -/

namespace LogEvent

variable {event : LogEvent}

/-- What is told of single versions is of no interest unless it is asked for. -/
theorem level_of_mem_ofVersions {catalog : Catalog} {layouts : Layouts} {versions : List Version}
    (h : event ∈ ofVersions catalog layouts versions) : event.level = .debug := by
  induction versions generalizing layouts with
  | nil => cases h
  | cons version rest ih =>
    rw [ofVersions] at h
    split at h
    · cases h
    · rcases List.mem_cons.mp h with rfl | h
      · rfl
      · exact ih h

theorem level_of_mem_firstEvents {config : Config} (h : event ∈ config.firstEvents) :
    event.level = .debug := by
  unfold Config.firstEvents at h
  split at h
  · cases h
  · split at h
    · cases h
    · rcases List.mem_cons.mp h with rfl | h
      · rfl
      · exact level_of_mem_ofVersions h

end LogEvent

theorem Config.events_of_error {config : Config} {workers : Nat} {e : SchemaError}
    (h : config.compile workers = .error e) : config.events workers = config.firstEvents := by
  rw [events, h]

namespace Response

variable (response : Response) (log : List LogLine)

@[simp] theorem code_logged : (response.logged log).code = response.code := rfl

@[simp] theorem out_logged : (response.logged log).out = response.out := rfl

@[simp] theorem err_logged : (response.logged log).err = response.err := rfl

@[simp] theorem log_logged : (response.logged log).log = log := rfl

theorem stderr_of_log_eq_nil {response : Response} (h : response.log = [])
    (look : LogLine → String) : response.stderr look = response.err := by
  have hempty : String.join (([] : List LogLine).map look) = "" := rfl
  rw [stderr, h, hempty, String.empty_append]

end Response

/-! ## Reading and compiling -/

namespace FileAccess

variable {σ : Type} (files : FileAccess (StateM σ)) (around : Surroundings) (s : σ)

/-- **The response to a line**, and the files behind it. -/
def answer (arguments : List String) : Response × σ := (respond files arguments around).run s

/-- **Reading changes nothing**, and neither does a write that fails. -/
structure IsClean : Prop where
  read : ∀ path s, ((files.read path).run s).2 = s
  write : ∀ path text s fault, ((files.write path text).run s).1 = .error fault →
    ((files.write path text).run s).2 = s

/-- **The file holds a schema that compiles.** -/
def Compiles (path : String) (c : Compilation) : Prop :=
  ∃ text config, ((files.read path).run s).1 = .ok text ∧
    Config.ofText (DocumentFormat.ofPath path) text = .ok config ∧ config.compile 1 = .ok c

variable {files} {s} in
theorem Compiles.exists_compile {path : String} {c : Compilation} (h : files.Compiles s path c) :
    ∃ config : Config, config.compile 1 = .ok c := by
  obtain ⟨_, config, -, -, hcompile⟩ := h
  exact ⟨config, hcompile⟩

end FileAccess

namespace Invocation

variable {σ : Type} (files : FileAccess (StateM σ)) (around : Surroundings) (s : σ)
  {output output' : OutputFormat} {quiet quiet' : Bool} {verbose verbose' : Nat}
  {path type : String} {workers : Nat} {c : Compilation} {read : Except FileFault String}

/-- What comes of reading and compiling a schema. -/
def loaded (path : String) : Except FileFault String → Except Failure Compilation
  | .error fault => .error (.cannotRead path fault)
  | .ok text => compilationOf around path text 1

/-- The log of reading and compiling a schema. -/
def logOf (invocation : Invocation) (path : String) (workers : Nat) :
    Except FileFault String → List LogLine
  | .error _ => []
  | .ok text => invocation.logSettings.lines around.asked (eventsOf path text workers)

theorem compilationOf_workers (text : String) :
    compilationOf around path text workers = compilationOf around path text 1 := by
  simp only [compilationOf, Config.compile_workers workers 1]

variable {files} {around} in
/-- **The log of a schema that does not compile** tells of single versions only, and whatever the
number of workers. -/
theorem eventsOf_of_error {text : String} {failure : Failure}
    (h : compilationOf around path text 1 = .error failure) (workers : Nat) :
    eventsOf path text workers = eventsOf path text 1 ∧
      ∀ event ∈ eventsOf path text 1, event.level = .debug := by
  unfold eventsOf
  unfold compilationOf at h
  cases hconfig : Config.ofText (DocumentFormat.ofPath path) text with
  | error fault => exact ⟨rfl, nofun⟩
  | ok config =>
    simp only [hconfig] at h
    cases hcompile : config.compile 1 with
    | ok c =>
      rw [hcompile] at h
      cases h
    | error e =>
      have hcompile' : config.compile workers = .error e :=
        (Config.compile_workers workers 1 config).trans hcompile
      dsimp only
      rw [Config.events_of_error hcompile, Config.events_of_error hcompile']
      exact ⟨rfl, fun event => LogEvent.level_of_mem_firstEvents⟩

variable {around} in
theorem logOf_of_error {failure : Failure} (h : loaded around path read = .error failure)
    (invocation : Invocation) (workers : Nat) :
    logOf around invocation path workers read = logOf around invocation path 1 read := by
  cases read with
  | error fault => rfl
  | ok text => rw [logOf, (eventsOf_of_error h workers).1, logOf]

variable {around} in
/-- **Nothing is told of a schema that does not compile** unless more is asked for. -/
theorem logOf_eq_nil {failure : Failure} (h : loaded around path read = .error failure)
    (hasked : around.asked = none) {invocation : Invocation}
    (hfew : invocation.quiet = true ∨ invocation.verbose ≤ 1) (workers : Nat) :
    logOf around invocation path workers read = [] := by
  have hlevel : invocation.logSettings.level.rank ≤ 2 := by
    unfold logSettings
    dsimp only
    rcases hfew with hquiet | hverbose
    · rw [if_pos hquiet]
      decide
    · split
      · decide
      · interval_cases invocation.verbose <;> decide
  rw [logOf_of_error h]
  cases read with
  | error fault => rfl
  | ok text =>
    rw [logOf, LogSettings.lines, List.map_eq_nil_iff, List.filter_eq_nil_iff]
    intro event hevent
    have hdebug : event.level = .debug := (eventsOf_of_error h 1).2 event hevent
    have hrank : LogLevel.debug.rank = 3 := rfl
    simp only [LogSettings.lets, hasked, hdebug, hrank, decide_eq_true_eq]
    omega

set_option maxRecDepth 20000 in
/-- A second version that moves a field which is not there is refused when the chain has been found,
and that is told if more is asked for twice. -/
example :
    let config : Config := {
      currentVersion := "b"
      baseTypes := .ofList [("A", { fields := .ofList [("x", "int")] })]
      versions := .ofList [("a", {}), ("b", ⟨some "a", [⟨"A", .move "y" "z" none⟩], none⟩)] }
    let lines (verbose : Nat) := (logSettings ⟨.text, false, verbose, .check "s"⟩).lines none
      (config.events 1)
    lines 1 = [] ∧ lines 2 = [⟨.sequenced 2 "a", .compact, true⟩] := by
  cbv

/-- **Every command begins by reading and compiling**, and the number of workers shows in the log
only. -/
theorem run_withCompiled (invocation : Invocation) (workers : Nat)
    (use : Compilation → StateM σ Response) :
    (withCompiled files around invocation path workers use).run s =
      let found := (files.read path).run s
      let log := logOf around invocation path workers found.1
      match loaded around path found.1 with
      | .error failure => ((failure.response invocation).logged log, found.2)
      | .ok c => (((use c).run found.2).1.logged log, ((use c).run found.2).2) := by
  have hread : (withCompiled files around invocation path workers use).run s =
      (match ((files.read path).run s).1 with
        | .error fault => pure ((Failure.cannotRead path fault).response invocation)
        | .ok text =>
          let log := invocation.logSettings.lines around.asked (eventsOf path text workers)
          match compilationOf around path text workers with
          | .error failure => pure ((failure.response invocation).logged log)
          | .ok compilation => do return (← use compilation).logged log : StateM σ Response).run
        ((files.read path).run s).2 := rfl
  rw [hread]
  rcases (files.read path).run s with ⟨_ | text, after⟩
  · rfl
  · simp only [compilationOf_workers, loaded, logOf]
    cases compilationOf around path text 1 <;> rfl

theorem compilationOf_eq_ok_iff {text : String} : compilationOf around path text 1 = .ok c ↔
    ∃ config, Config.ofText (DocumentFormat.ofPath path) text = .ok config ∧
      config.compile 1 = .ok c := by
  simp only [compilationOf]
  cases hconfig : Config.ofText (DocumentFormat.ofPath path) text with
  | error fault => simp
  | ok config =>
    cases hcompile : config.compile 1 with
    | error e => simp [hcompile, Except.mapError]
    | ok c' => simp [hcompile, Except.mapError]

/-- **Reading and compiling succeeds** exactly on files that hold a schema that compiles. -/
theorem loaded_eq_ok_iff :
    loaded around path ((files.read path).run s).1 = .ok c ↔ files.Compiles s path c := by
  unfold FileAccess.Compiles
  cases ((files.read path).run s).1 with
  | error fault => simp [loaded]
  | ok text => simp [loaded, compilationOf_eq_ok_iff]

/-! ## Commands -/

/-- A check tells what failed, or the summary. -/
theorem run_check : (carryOut files around ⟨output, quiet, verbose, .check path⟩).run s =
    let found := (files.read path).run s
    let invocation : Invocation := ⟨output, quiet, verbose, .check path⟩
    let response := match loaded around path found.1 with
      | .error failure => failure.response invocation
      | .ok c => shown invocation c.summary.text c.summary.json
    (response.logged (logOf around invocation path around.cores found.1), found.2) := by
  refine (run_withCompiled files around s _ _ _).trans ?_
  dsimp only
  cases loaded around path ((files.read path).run s).1 <;> rfl

/-- Compiling tells what failed, or writes the document. -/
theorem run_compile {out : Option String} {number : Option Nat} (hnumber : number ≠ some 0) :
    (carryOut files around ⟨output, quiet, verbose, .compile path out number⟩).run s =
      let found := (files.read path).run s
      let invocation : Invocation := ⟨output, quiet, verbose, .compile path out number⟩
      let done := match loaded around path found.1 with
        | .error failure => (failure.response invocation, found.2)
        | .ok c => (emit files invocation (c.json.pretty ++ "\n") out).run found.2
      (done.1.logged (logOf around invocation path (number.getD around.cores) found.1),
        done.2) := by
  unfold carryOut
  dsimp only
  rw [if_neg hnumber]
  refine (run_withCompiled files around s _ _ _).trans ?_
  dsimp only
  cases loaded around path ((files.read path).run s).1 <;> rfl

/-- Writing to a file tells what failed, or where the document is. -/
theorem run_emit (invocation : Invocation) (document target : String) :
    (emit files invocation document (some target)).run s =
      (match ((files.write target document).run s).1 with
        | .error fault => (Failure.cannotWrite target fault).response invocation
        | .ok () => { code := 0, out := invocation.written target },
        ((files.write target document).run s).2) := by
  have hemit : (emit files invocation document (some target)).run s =
      (match ((files.write target document).run s).1 with
        | .error fault => pure ((Failure.cannotWrite target fault).response invocation)
        | .ok () => pure { code := 0, out := invocation.written target } : StateM σ Response).run
        ((files.write target document).run s).2 := rfl
  rw [hemit]
  cases ((files.write target document).run s).1 <;> rfl

/-- A history tells what failed, or the history of a type. -/
theorem run_history : (carryOut files around ⟨output, quiet, verbose, .history path type⟩).run s =
    let found := (files.read path).run s
    let invocation : Invocation := ⟨output, quiet, verbose, .history path type⟩
    let response := match loaded around path found.1 with
      | .error failure => failure.response invocation
      | .ok c =>
        match c.typeHistory type with
        | .error error => (Failure.refused error).response invocation
        | .ok history => shown invocation (history.text c.graph) history.json
    (response.logged (logOf around invocation path around.cores found.1), found.2) := by
  refine (run_withCompiled files around s _ _ _).trans ?_
  dsimp only
  cases loaded around path ((files.read path).run s).1 with
  | error failure => rfl
  | ok c =>
    dsimp only
    cases c.typeHistory type <;> rfl

theorem code_shown (invocation : Invocation) (text : String) (json : Json) :
    (invocation.shown text json).code = 0 := by
  unfold shown
  cases invocation.output <;> rfl

theorem err_shown (invocation : Invocation) (text : String) (json : Json) :
    (invocation.shown text json).err = "" := by
  unfold shown
  cases invocation.output <;> rfl

theorem code_check :
    ((carryOut files around ⟨output, quiet, verbose, .check path⟩).run s).1.code = 0 ↔
      ∃ c, files.Compiles s path c := by
  simp only [← loaded_eq_ok_iff files around, run_check, Response.code_logged]
  cases loaded around path ((files.read path).run s).1 with
  | error failure => simp [Failure.response]
  | ok c => simp [code_shown]

theorem code_compile {number : Option Nat} (hnumber : number ≠ some 0) :
    ((carryOut files around ⟨output, quiet, verbose, .compile path none number⟩).run s).1.code = 0 ↔
      ∃ c, files.Compiles s path c := by
  simp only [← loaded_eq_ok_iff files around, run_compile files around s hnumber,
    Response.code_logged]
  cases loaded around path ((files.read path).run s).1 with
  | error failure => simp [Failure.response]
  | ok c => exact iff_of_true rfl ⟨c, rfl⟩

theorem code_history :
    ((carryOut files around ⟨output, quiet, verbose, .history path type⟩).run s).1.code = 0 ↔
      ∃ c, files.Compiles s path c ∧
        ∃ ref, TypeRef.parse type = .ok ref ∧ c.graph.IsName ref.canonical := by
  rw [run_history]
  dsimp only
  rw [Response.code_logged]
  constructor
  · intro hcode
    cases hloaded : loaded around path ((files.read path).run s).1 with
    | error failure =>
      rw [hloaded] at hcode
      cases hcode
    | ok c =>
      have hcompiles := (loaded_eq_ok_iff files around s).mp hloaded
      obtain ⟨config, hcompile⟩ := hcompiles.exists_compile
      rw [hloaded] at hcode
      cases hhistory : c.typeHistory type with
      | error e =>
        simp only [hhistory] at hcode
        cases hcode
      | ok history =>
        exact ⟨c, hcompiles,
          (Compilation.exists_typeHistory_iff hcompile type).mp ⟨history, hhistory⟩⟩
  · rintro ⟨c, hcompiles, hname⟩
    obtain ⟨config, hcompile⟩ := hcompiles.exists_compile
    obtain ⟨history, hhistory⟩ := (Compilation.exists_typeHistory_iff hcompile type).mpr hname
    rw [(loaded_eq_ok_iff files around s).mpr hcompiles]
    simp only [hhistory]
    exact code_shown _ _ _

/-- **A history that there is** is shown. -/
theorem run_history_of_typeHistory (invocation : Invocation) {history : TypeHistory}
    (hcommand : invocation.command = .history path type) (h : files.Compiles s path c)
    (hhistory : c.typeHistory type = .ok history) :
    ∃ log, ((invocation.carryOut files around).run s).1 =
      (invocation.shown (history.text c.graph) history.json).logged log := by
  obtain ⟨output, quiet, verbose, command⟩ := invocation
  obtain rfl := hcommand
  rw [run_history]
  dsimp only
  rw [(loaded_eq_ok_iff files around s).mpr h]
  simp only [hhistory]
  exact ⟨_, rfl⟩

/-- **What fails of a check fails of compiling**, in the same words and with the same log if the
same is asked of it. -/
theorem run_compile_of_check {number : Option Nat} (hnumber : number ≠ some 0)
    (hcode : ((carryOut files around ⟨output, quiet, verbose, .check path⟩).run s).1.code ≠ 0) :
    let check := ((carryOut files around ⟨output, quiet, verbose, .check path⟩).run s).1
    let compile :=
      ((carryOut files around ⟨output, quiet, verbose', .compile path none number⟩).run s).1
    compile.code = check.code ∧ compile.out = check.out ∧ compile.err = check.err ∧
      (verbose = verbose' → compile = check) ∧
      (around.asked = none → (quiet = true ∨ verbose ≤ 1 ∧ verbose' ≤ 1) →
        ∀ look look', compile.stderr look = check.stderr look') := by
  obtain ⟨failure, hloaded⟩ : ∃ failure,
      loaded around path ((files.read path).run s).1 = .error failure := by
    cases hloaded : loaded around path ((files.read path).run s).1 with
    | error failure => exact ⟨failure, rfl⟩
    | ok c => exact absurd ((code_check files around s).mpr
        ⟨c, (loaded_eq_ok_iff files around s).mp hloaded⟩) hcode
  have hlog := fun invocation => logOf_of_error hloaded invocation
  rw [run_check, run_compile files around s hnumber]
  simp only [hloaded, hlog _ around.cores, hlog _ (number.getD around.cores)]
  refine ⟨rfl, rfl, rfl, ?_, fun hasked hfew look look' => ?_⟩
  · rintro rfl
    rfl
  · have hfew' : quiet = true ∨ verbose' ≤ 1 := hfew.imp_right And.right
    rw [Response.stderr_of_log_eq_nil (logOf_eq_nil hloaded hasked hfew' 1),
      Response.stderr_of_log_eq_nil (logOf_eq_nil hloaded hasked (hfew.imp_right And.left) 1)]
    rfl

/-! ## Failures -/

section Clean

variable {files} {around} {s} (hclean : files.IsClean)

include hclean

theorem compile_of_code_one {out : Option String} {number : Option Nat}
    (hcode : ((carryOut files around
      ⟨output, quiet, verbose, .compile path out number⟩).run s).1.code = 1) :
    ((carryOut files around ⟨output, quiet, verbose, .compile path out number⟩).run s).1.out = "" ∧
      ((carryOut files around ⟨output, quiet, verbose, .compile path out number⟩).run s).2 = s := by
  by_cases hnumber : number = some 0
  · subst hnumber
    exact ⟨rfl, rfl⟩
  · rw [run_compile files around s hnumber] at hcode ⊢
    dsimp only at hcode ⊢
    rw [Response.code_logged] at hcode
    rw [Response.out_logged]
    cases hloaded : loaded around path ((files.read path).run s).1 with
    | error failure => exact ⟨rfl, hclean.read path s⟩
    | ok c =>
      rw [hloaded] at hcode
      cases out with
      | none => cases hcode
      | some target =>
        dsimp only at hcode ⊢
        rw [run_emit, hclean.read] at hcode ⊢
        cases hwrite : ((files.write target (c.json.pretty ++ "\n")).run s).1 with
        | error fault => exact ⟨rfl, hclean.write _ _ s fault hwrite⟩
        | ok done =>
          rw [hwrite] at hcode
          cases hcode

/-- **What fails changes nothing**, and writes nothing but its failure. -/
theorem carryOut_of_code_one {invocation : Invocation}
    (hcode : ((invocation.carryOut files around).run s).1.code = 1) :
    ((invocation.carryOut files around).run s).1.out = "" ∧
      ((invocation.carryOut files around).run s).2 = s := by
  have hshown : ∀ {invocation : Invocation} {text : String} {json : Json},
      (invocation.shown text json).code ≠ 1 := by
    intro invocation text json
    rw [code_shown]
    decide
  obtain ⟨output, quiet, verbose, command⟩ := invocation
  cases command with
  | compile path out number => exact compile_of_code_one hclean hcode
  | check path =>
    rw [run_check] at hcode ⊢
    refine ⟨?_, hclean.read path s⟩
    dsimp only at hcode ⊢
    rw [Response.code_logged] at hcode
    rw [Response.out_logged]
    cases hloaded : loaded around path ((files.read path).run s).1 with
    | error failure => rfl
    | ok c =>
      rw [hloaded] at hcode
      exact absurd hcode hshown
  | history path type =>
    rw [run_history] at hcode ⊢
    refine ⟨?_, hclean.read path s⟩
    dsimp only at hcode ⊢
    rw [Response.code_logged] at hcode
    rw [Response.out_logged]
    cases hloaded : loaded around path ((files.read path).run s).1 with
    | error failure => rfl
    | ok c =>
      rw [hloaded] at hcode
      cases hhistory : c.typeHistory type with
      | error e => simp only [hhistory]; rfl
      | ok history =>
        simp only [hhistory] at hcode
        exact absurd hcode hshown

end Clean

/-- **A document that goes to a file** is the one that is written otherwise. -/
theorem exists_write_of_code_zero {target : String} {number number' : Option Nat}
    (hnumber' : number' ≠ some 0)
    (hcode : ((carryOut files around
      ⟨output, quiet, verbose, .compile path (some target) number⟩).run s).1.code = 0) :
    ∃ document, ((files.write target document).run ((files.read path).run s).2).1 = .ok () ∧
      ((carryOut files around
          ⟨output, quiet, verbose, .compile path (some target) number⟩).run s).2 =
        ((files.write target document).run ((files.read path).run s).2).2 ∧
      let printed :=
        ((carryOut files around ⟨output', quiet', verbose', .compile path none number'⟩).run s).1
      printed.code = 0 ∧ printed.out = document := by
  by_cases hnumber : number = some 0
  · subst hnumber
    cases hcode
  · rw [run_compile files around s hnumber] at hcode ⊢
    rw [run_compile files around s hnumber']
    dsimp only at hcode ⊢
    rw [Response.code_logged] at hcode
    simp only [Response.code_logged, Response.out_logged]
    cases hloaded : loaded around path ((files.read path).run s).1 with
    | error failure =>
      rw [hloaded] at hcode
      cases hcode
    | ok c =>
      rw [hloaded] at hcode
      dsimp only at hcode ⊢
      rw [run_emit] at hcode ⊢
      cases hwrite : ((files.write target (c.json.pretty ++ "\n")).run
          ((files.read path).run s).2).1 with
      | error fault =>
        rw [hwrite] at hcode
        cases hcode
      | ok done => exact ⟨_, hwrite, rfl, rfl, rfl⟩

end Invocation

/-! ## Folders -/

namespace Folder

variable {folder : Folder} {path text : String}

theorem run_write : (access.write path text).run folder =
    match folder.write? path text with
    | .error fault => (.error fault, folder)
    | .ok folder' => (.ok (), folder') := by
  have hwrite : (access.write path text).run folder =
      (match folder.write? path text with
        | .error fault => pure (.error fault)
        | .ok folder' => set folder' >>= fun _ => pure (.ok ()) :
          StateM Folder (Except FileFault Unit)).run folder := rfl
  rw [hwrite]
  cases folder.write? path text <;> rfl

/-- **A folder is only changed by writes that succeed.** -/
theorem isClean_access : access.IsClean where
  read _ _ := rfl
  write path text folder fault h := by
    rw [run_write] at h ⊢
    cases hwrite : folder.write? path text with
    | error fault => rfl
    | ok folder' =>
      rw [hwrite] at h
      cases h

theorem write?_of_access (h : ((access.write path text).run folder).1 = .ok ()) :
    folder.write? path text = .ok ((access.write path text).run folder).2 := by
  rw [run_write] at h ⊢
  cases hwrite : folder.write? path text with
  | error fault =>
    rw [hwrite] at h
    cases h
  | ok folder' => rfl

end Folder

/-! ## Lines -/

namespace FileAccess

open CommandLine (GlobalOption line)

variable {σ : Type} {files : FileAccess (StateM σ)} {around : Surroundings} {s : σ}
  {arguments : List String}

theorem answer_of_read {invocation : Invocation} (h : CommandLine.read arguments = .ok invocation) :
    files.answer around s arguments = (invocation.carryOut files around).run s := by
  rw [answer, respond, h]

theorem answer_of_stop {stop : CommandLine.Stop} (h : CommandLine.read arguments = .error stop) :
    files.answer around s arguments = (stop.response around arguments, s) := by
  rw [answer, respond, h]
  rfl

/-- **What fails changes nothing**, whatever the line. -/
theorem answer_of_code_one (hclean : files.IsClean)
    (hcode : (files.answer around s arguments).1.code = 1) :
    (files.answer around s arguments).1.out = "" ∧ (files.answer around s arguments).2 = s := by
  cases hread : CommandLine.read arguments with
  | error stop =>
    rw [answer_of_stop hread] at hcode
    cases stop <;> cases hcode
  | ok invocation =>
    rw [answer_of_read hread] at hcode ⊢
    exact Invocation.carryOut_of_code_one hclean hcode

section Reads

variable {checking compiling asking : List String} {output output' : OutputFormat}
  {quiet quiet' : Bool} {verbose verbose' : Nat} {config type : String} {workers : Option Nat}
  (hchecking : CommandLine.read checking = .ok ⟨output, quiet, verbose, .check config⟩)

variable (files around s)

include hchecking

/-- **Checking and compiling succeed together**, and say the same of a failure. -/
theorem answer_compiling (hcompiling : CommandLine.read compiling =
      .ok ⟨output', quiet', verbose', .compile config none workers⟩) (hworkers : workers ≠ some 0) :
    let check := (files.answer around s checking).1
    let compile := (files.answer around s compiling).1
    (check.code = 0 ↔ compile.code = 0) ∧
      (output = output' → quiet = quiet' → check.code ≠ 0 →
        compile.code = check.code ∧ compile.out = check.out ∧ compile.err = check.err ∧
          (verbose = verbose' → compile = check) ∧
          (around.asked = none → (quiet = true ∨ verbose ≤ 1 ∧ verbose' ≤ 1) →
            ∀ look look', compile.stderr look = check.stderr look')) := by
  rw [answer_of_read hchecking, answer_of_read hcompiling]
  refine ⟨(Invocation.code_check files around s).trans
    (Invocation.code_compile files around s hworkers).symm, ?_⟩
  rintro rfl rfl hcode
  exact Invocation.run_compile_of_check files around s hworkers hcode

/-- **A history is told** of what is checked, if the type is one of the graph. -/
theorem answer_asking
    (hasking : CommandLine.read asking = .ok ⟨output', quiet', verbose', .history config type⟩) :
    (files.answer around s asking).1.code = 0 ↔ (files.answer around s checking).1.code = 0 ∧
      ∃ c, files.Compiles s config c ∧
        ∃ ref, TypeRef.parse type = .ok ref ∧ c.graph.IsName ref.canonical := by
  rw [answer_of_read hchecking, answer_of_read hasking, Invocation.code_history,
    Invocation.code_check]
  constructor
  · rintro ⟨c, hcompiles, hname⟩
    exact ⟨⟨c, hcompiles⟩, c, hcompiles, hname⟩
  · exact And.right

end Reads

/-- **The three commands accept the same schemas and fail cleanly.** With the same options around
its name, a check succeeds exactly if compiling does, with any number of workers, and a failure has
the same response, the log included; the history of a type is told if, besides, its spelling is read
as a name of the graph. The same holds of all lines that are read as these commands, in whatever way
they are written. If they ask for different amounts of the log, the failure is still told in the
same words, and all that is written is the same while neither asks for more than the summaries of
the passes and the surroundings ask for nothing. A line that is not understood is told in words that
may name the command, so only its code is the same. A line that ends with code one writes nothing
but its failure and the log and leaves all files alone, provided that reading and failing writes do
so. A document that goes to a file of a folder is the one that is printed otherwise, and no other
file changes. -/
theorem commands_coherent {σ : Type} (files : FileAccess (StateM σ)) (around : Surroundings)
    (s : σ) :
    (∀ (before after : List GlobalOption) (config type : String) (workers : Option String),
      (∀ text, workers = some text → ∃ n, CommandLine.workers? text = some (n + 1)) →
      let check := (files.answer around s (line before after .check none [config])).1
      let compile := (files.answer around s (line before after .compile workers [config])).1
      let history := (files.answer around s (line before after .history none [config, type])).1
      (check.code = 0 ↔ compile.code = 0) ∧ (check.code ≠ 0 → compile.code = check.code) ∧
        (check.code = 1 → compile = check) ∧
        (history.code = 0 ↔ check.code = 0 ∧ ∃ c, files.Compiles s config c ∧
          ∃ ref, TypeRef.parse type = .ok ref ∧ c.graph.IsName ref.canonical)) ∧
    (∀ (checking compiling : List String) (output output' : OutputFormat) (quiet quiet' : Bool)
        (verbose verbose' : Nat) (config : String) (workers : Option Nat),
      CommandLine.read checking = .ok ⟨output, quiet, verbose, .check config⟩ →
      CommandLine.read compiling = .ok ⟨output', quiet', verbose', .compile config none workers⟩ →
      workers ≠ some 0 →
      let check := (files.answer around s checking).1
      let compile := (files.answer around s compiling).1
      (check.code = 0 ↔ compile.code = 0) ∧
        (output = output' → quiet = quiet' → check.code ≠ 0 →
          compile.code = check.code ∧ compile.out = check.out ∧ compile.err = check.err ∧
            (verbose = verbose' → compile = check) ∧
            (around.asked = none → (quiet = true ∨ verbose ≤ 1 ∧ verbose' ≤ 1) →
              ∀ look look', compile.stderr look = check.stderr look'))) ∧
    (∀ (checking asking : List String) (output output' : OutputFormat) (quiet quiet' : Bool)
        (verbose verbose' : Nat) (config type : String),
      CommandLine.read checking = .ok ⟨output, quiet, verbose, .check config⟩ →
      CommandLine.read asking = .ok ⟨output', quiet', verbose', .history config type⟩ →
      ((files.answer around s asking).1.code = 0 ↔ (files.answer around s checking).1.code = 0 ∧
        ∃ c, files.Compiles s config c ∧
          ∃ ref, TypeRef.parse type = .ok ref ∧ c.graph.IsName ref.canonical)) ∧
    (files.IsClean → ∀ arguments, (files.answer around s arguments).1.code = 1 →
      (files.answer around s arguments).1.out = "" ∧ (files.answer around s arguments).2 = s) ∧
    ∀ (folder : Folder) (writing printing : List String) (output output' : OutputFormat)
        (quiet quiet' : Bool) (verbose verbose' : Nat) (config target : String)
        (workers workers' : Option Nat),
      CommandLine.read writing =
        .ok ⟨output, quiet, verbose, .compile config (some target) workers⟩ →
      CommandLine.read printing = .ok ⟨output', quiet', verbose', .compile config none workers'⟩ →
      workers' ≠ some 0 → (Folder.access.answer around folder writing).1.code = 0 →
      let folder' := (Folder.access.answer around folder writing).2
      let printed := (Folder.access.answer around folder printing).1
      printed.code = 0 ∧ ∃ names, folder'.find target = .ok (.file names printed.out) ∧
        ∀ other old path, other ≠ names →
          (folder'.find path = .ok (.file other old) ↔
            folder.find path = .ok (.file other old)) := by
  refine ⟨fun before after config type workers hworkers => ?_,
    fun _ _ _ _ _ _ _ _ _ _ => answer_compiling files around s,
    fun _ _ _ _ _ _ _ _ _ _ => answer_asking files around s,
    fun hclean _ => answer_of_code_one hclean,
    fun folder writing printing output output' quiet quiet' verbose verbose' config target workers
      workers' hread hread' hworkers' hcode => ?_⟩
  · have hnumber : ∀ text, workers = some text → ∃ n, CommandLine.workers? text = some n := by
      intro text htext
      obtain ⟨n, hn⟩ := hworkers text htext
      exact ⟨n + 1, hn⟩
    rcases CommandLine.read_lines before after config type hnumber with
      ⟨hchecking, hcompiling, hasking⟩ | ⟨output, quiet, verbose, hchecking, hcompiling, hasking⟩
    · rw [answer_of_stop hchecking, answer_of_stop hcompiling, answer_of_stop hasking]
      have husage : ∀ arguments, (CommandLine.Stop.usage.response around arguments).code = 2 :=
        fun _ => rfl
      simp [husage]
    · have hpositive : workers.bind CommandLine.workers? ≠ some 0 := by
        rw [ne_eq, Option.bind_eq_some_iff]
        rintro ⟨text, htext, hzero⟩
        obtain ⟨n, hn⟩ := hworkers text htext
        exact absurd (Option.some.inj (hn.symm.trans hzero)) (Nat.succ_ne_zero n)
      obtain ⟨hiff, hsame⟩ := answer_compiling files around s hchecking hcompiling hpositive
      refine ⟨hiff, fun hcode => (hsame rfl rfl hcode).1, fun hcode => ?_,
        answer_asking files around s hchecking hasking⟩
      have hfails :
          (files.answer around s (line before after .check none [config])).1.code ≠ 0 := by
        rw [hcode]
        decide
      exact (hsame rfl rfl hfails).2.2.2.1 rfl
  · rw [answer_of_read hread] at hcode ⊢
    rw [answer_of_read hread']
    obtain ⟨document, hwrite, hafter, hcode', hprinted⟩ :=
      Invocation.exists_write_of_code_zero Folder.access around folder hworkers' hcode
    dsimp only
    rw [hafter, hprinted]
    exact ⟨hcode', Folder.find_of_write? (Folder.write?_of_access hwrite)⟩

end FileAccess

/-! ## A small folder -/

/-- The text of a schema that has native types only. -/
def Config.sampleText : String :=
  "\x7b\"current_version\":\"1\",\"versions\":\x7b\"1\":\x7b\x7d\x7d\x7d"

/-- A folder with a schema in it. -/
def Folder.sample : Folder := ⟨[(["s"], Config.sampleText)]⟩

namespace Folder

theorem find_sample : sample.find "s" = .ok (.file ["s"] Config.sampleText) := by
  have hstart : "s".startsWith "/" = false := by cbv
  rw [find, FilePath.parts_eq, hstart]
  rfl

theorem find_sample_free : sample.find "o" = .ok (.free ["o"]) := by
  have hstart : "o".startsWith "/" = false := by cbv
  rw [find, FilePath.parts_eq, hstart]
  rfl

theorem run_read (folder : Folder) (path : String) :
    (access.read path).run folder = (folder.read? path, folder) := rfl

theorem node_sampleText : (((Config.ofText .json Config.sampleText).toOption.bind
    fun config => (config.compile 1).toOption).bind
      fun c => c.graph.index.node? "int" 0).isSome = true := by
  cbv

theorem exists_compiles_sample : ∃ c, access.Compiles sample "s" c ∧ c.graph.IsName "int" := by
  have hformat : DocumentFormat.ofPath "s" = .json := by
    rw [DocumentFormat.ofPath, FilePath.ending?, FilePath.fileName?, FilePath.parts_eq]
    rfl
  obtain ⟨id, hid⟩ := Option.isSome_iff_exists.mp node_sampleText
  obtain ⟨c, hc, hid⟩ := Option.bind_eq_some_iff.mp hid
  obtain ⟨config, hconfig, hcompile⟩ := Option.bind_eq_some_iff.mp hc
  refine ⟨c, ⟨Config.sampleText, config, ?_, ?_, toOption_eq_some_iff.mp hcompile⟩,
    0, Index.mem_names_of_node? hid⟩
  · rw [run_read, read?, find_sample]
  · rw [hformat]
    exact toOption_eq_some_iff.mp hconfig

end Folder

/-- In the small folder the schema is checked and compiled, a file that is not there is reported,
and the document is written to a new file. -/
theorem FileAccess.commands_coherent_sample :
    (Folder.access.answer {} Folder.sample ["check", "--", "s"]).1.code = 0 ∧
    (Folder.access.answer {} Folder.sample ["compile", "--workers", "2", "--", "s"]).1.code = 0 ∧
    (Folder.access.answer {} Folder.sample ["check", "--", "o"]).1.code = 1 ∧
    Folder.access.answer {} Folder.sample ["compile", "--", "o"] =
      Folder.access.answer {} Folder.sample ["check", "--", "o"] ∧
    (Folder.access.answer {} Folder.sample ["check", "--", "o"]).2 = Folder.sample ∧
    (Folder.access.answer {} Folder.sample ["compile", "--out", "o", "--", "s"]).1.code = 0 ∧
    ∃ names,
      (Folder.access.answer {} Folder.sample ["compile", "--out", "o", "--", "s"]).2.find "o" =
        .ok (.file names (Folder.access.answer {} Folder.sample ["compile", "--", "s"]).1.out) := by
  obtain ⟨c, hcompiles, -⟩ := Folder.exists_compiles_sample
  have hchecking : CommandLine.read ["check", "--", "s"] = .ok ⟨.text, false, 0, .check "s"⟩ := rfl
  have hmissing : CommandLine.read ["check", "--", "o"] = .ok ⟨.text, false, 0, .check "o"⟩ := rfl
  have habsent : CommandLine.read ["compile", "--", "o"] =
      .ok ⟨.text, false, 0, .compile "o" none none⟩ := rfl
  have hwriting : CommandLine.read ["compile", "--out", "o", "--", "s"] =
      .ok ⟨.text, false, 0, .compile "s" (some "o") none⟩ := rfl
  have hprinting : CommandLine.read ["compile", "--", "s"] =
      .ok ⟨.text, false, 0, .compile "s" none none⟩ := rfl
  have hcheck : (Folder.access.answer {} Folder.sample ["check", "--", "s"]).1.code = 0 := by
    rw [answer_of_read hchecking]
    exact (Invocation.code_check _ _ _).mpr ⟨c, hcompiles⟩
  have hfault : (Folder.access.answer {} Folder.sample ["check", "--", "o"]).1.code = 1 := by
    rw [answer_of_read hmissing, Invocation.run_check, Folder.run_read, Folder.read?,
      Folder.find_sample_free]
    rfl
  have hnumber : (none : Option Nat) ≠ some 0 := (Option.some_ne_none 0).symm
  have hwritten : (Folder.access.answer {} Folder.sample
      ["compile", "--out", "o", "--", "s"]).1.code = 0 := by
    have hloaded := (Invocation.loaded_eq_ok_iff Folder.access {} _).mpr hcompiles
    have hend : "o".endsWith "/" = false := by cbv
    rw [answer_of_read hwriting, Invocation.run_compile _ _ _ hnumber]
    dsimp only
    rw [hloaded]
    simp only [Invocation.run_emit, Folder.run_write, Folder.run_read, Folder.write?, hend,
      Folder.find_sample_free]
    rfl
  obtain ⟨hlines, hreads, -, hfail, hout⟩ := commands_coherent Folder.access {} Folder.sample
  obtain ⟨hcompile, -, -, -⟩ := hlines [] [] "s" "int" (some "2") fun text htext =>
    ⟨1, Option.some.inj htext ▸ rfl⟩
  obtain ⟨-, hsame⟩ := hfail Folder.isClean_access _ hfault
  have hfails : (Folder.access.answer {} Folder.sample ["check", "--", "o"]).1.code ≠ 0 := by
    rw [hfault]
    decide
  obtain ⟨hcode, -, -, hresponse, -⟩ :=
    (hreads _ _ _ _ _ _ _ _ _ _ hmissing habsent hnumber).2 rfl rfl hfails
  obtain ⟨-, hsame'⟩ := hfail Folder.isClean_access _ (hcode.trans hfault)
  obtain ⟨-, names, hfound, -⟩ :=
    hout Folder.sample _ _ _ _ _ _ _ _ _ _ _ _ hwriting hprinting hnumber hwritten
  exact ⟨hcheck, hcompile.mp hcheck, hfault, Prod.ext (hresponse rfl) (hsame'.trans hsame.symm),
    hsame, hwritten, names, hfound⟩

end SchemaEvolution
