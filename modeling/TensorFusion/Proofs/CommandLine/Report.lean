import TensorFusion.CommandLine.Report
import TensorFusion.Proofs.Pass.Ledger
import TensorFusion.Proofs.Pass.Readable

/-!
# Proofs — CommandLine — Report

What the command comes to, with any file system. A program that cannot be fused is refused without a
word on the output, and no file is touched. All others are optimized: the numbers that are printed
add up, and the file that is written reads as the optimized program, as long as the file system
gives back what was written there.
-/

namespace TensorFusion

/-- A program cannot be fused. -/
def Optimizer.Refuses (o : Optimizer) (p : Program) : Prop :=
  ∃ cause, (o.optimize p).result = .error (.fusion cause)

theorem Optimizer.not_refuses_of_isOk {o : Optimizer} {p : Program}
    (h : (o.optimize p).result.isOk = true) : ¬ o.Refuses p := by
  intro hrefuses
  obtain ⟨cause, hcause⟩ := hrefuses
  rw [hcause] at h
  cases h

namespace CommandLine

/-! ## The optimizer of a request -/

/-- The optimizer that a request is carried out with. -/
def Request.optimizer (r : Request) : Optimizer where
  registry := .standard
  catalog := { templates := Template.standard, maxDepth := .int 8 }
  config := r.config

theorem Request.make_eq (r : Request) :
    Optimizer.make none none (some r.config) = .ok r.optimizer := by
  have hmake : Optimizer.make none none (some r.config)
      = Catalog.standard (.int 8) >>= fun catalog =>
        .ok { registry := .standard, config := r.config, catalog := catalog } := rfl
  rw [hmake, standardCatalog_eq]
  rfl

theorem Request.isAccountable (r : Request) : r.optimizer.IsAccountable := by
  have hslots : ∀ e ∈ Registry.standard.signatures.entries, ∀ slot ∈ e.2.inputs ++ e.2.outputs,
      slot.isString = true := by
    decide
  have htemplates : ∀ t ∈ Template.standard, t.name.isString = true ∧ t.trigger.isString = true ∧
      t.fusedType.isString = true := by
    decide
  have hlinear : ∀ t ∈ Template.standard, t.root.isLinear = true := by decide
  exact ⟨⟨hslots, htemplates, _, rfl⟩, hlinear, Catalog.areNamedApart_of_ofList standardCatalog_eq⟩

theorem opCount_eq (p : Program) : opCount p = p.opTotal := by
  suffices ∀ (blocks : List Block) (n : Nat),
      blocks.foldl (fun count block => count + block.ops.length) n
        = n + totalOf (fun block => block.ops.length) blocks by
    rw [opCount, this, Nat.zero_add, Program.opTotal]
  intro blocks
  induction blocks with
  | nil => exact fun n => rfl
  | cons block blocks ih =>
    intro n
    rw [List.foldl_cons, ih, totalOf, Nat.add_assoc]

/-! ## Reports -/

section Report

variable {σ : Type} {fs : FileSystem σ} {files files' : σ} {r : Request} {p : Program}
  {text : String} {v : Value}

/-- A program that is not refused is optimized, and as many operators are told to be removed as are
missing. -/
theorem Request.exists_out (r : Request) (hp : p.IsTyped) (hnot : ¬ r.optimizer.Refuses p) :
    ∃ out, (r.optimizer.optimize p).result = .ok out ∧
      opCount p = opCount out.program + (r.optimizer.optimize p).optimizer.stats.removedOps := by
  have hbooks := r.isAccountable.books hp
  unfold Optimizer.Refuses at hnot
  generalize r.optimizer.optimize p = run at hbooks hnot
  cases hbooks with
  | refused => exact absurd ⟨_, rfl⟩ hnot
  | @optimized program stats gone _ hgone _ _ hremoved =>
    refine ⟨_, rfl, ?_⟩
    show opCount p = opCount program + stats.removedOps
    have hstart : r.optimizer.stats.removedOps = 0 := rfl
    rw [opCount_eq, opCount_eq, hremoved, hstart, Nat.zero_add, hgone]

theorem report_eq (hv : Json.read text = .ok v) (hp : Program.ofValue v = .ok p) :
    report r text = reportRun r p (r.optimizer.optimize p) := by
  unfold report
  simp only [hv, hp, ok_bind, Request.make_eq]
  rfl

theorem run_of_not_written (htext : fs.read files r.program = .ok text)
    (h : (report r text).written = none) : run fs files r = (report r text, files) := by
  simp only [run, htext, h]

theorem run_of_written {path written : String} (htext : fs.read files r.program = .ok text)
    (h : (report r text).written = some (path, written))
    (hwrite : fs.write files path written = .ok files') : run fs files r =
      ({ report r text with stdout := (report r text).stdout ++ writtenLine path }, files') := by
  simp only [run, htext, h, hwrite]

theorem written_cases (r : Request) (p : Program) :
    (r.written p = none ∧ ∀ path, r.output = some path → path = "") ∨
    ∃ path, r.output = some path ∧ path ≠ "" ∧ r.written p = some (path, Json.write p.toValue) := by
  unfold Request.written
  split
  next hnone => exact .inl ⟨rfl, fun path hpath => by rw [hnone] at hpath; cases hpath⟩
  next hempty => exact .inl ⟨rfl, fun path hpath => by rw [hempty] at hpath; cases hpath; rfl⟩
  next path hne hpath => exact .inr ⟨path, hpath, hne, rfl⟩

/-! ## Commands -/

/-- A program is read from a file. -/
def FileSystem.HoldsProgram (fs : FileSystem σ) (files : σ) (path : String) (p : Program) : Prop :=
  ∃ text v, fs.read files path = .ok text ∧ Json.read text = .ok v ∧ Program.ofValue v = .ok p

/-- A path leads to an ordinary file, or to where one may be made: every text can be written there,
and is what is read there afterwards. -/
def FileSystem.IsOpenable (fs : FileSystem σ) (files : σ) (path : String) : Prop :=
  ∀ text, ∃ files', fs.write files path text = .ok files' ∧ fs.read files' path = .ok text

/-- Nothing is printed as a result, and the files are as they were. -/
def Request.LeavesNoTrace (r : Request) (fs : FileSystem σ) (files : σ) : Prop :=
  (run fs files r).1.stdout = "" ∧ (run fs files r).2 = files

/-- A request is carried out to its end: the operators that are gone are as many as is told, and the
file that is asked for holds the optimized program. -/
structure Request.Completes (r : Request) (fs : FileSystem σ) (files : σ) (p optimized : Program) :
    Prop where
  result : (run fs files r).1.result = .ok 0
  stdout : ∃ removed more, (run fs files r).1.stdout = rule
      ++ s!"Ops: {opCount p} -> {opCount optimized} (removed {removed})\n" ++ more ∧
    opCount p = opCount optimized + removed
  output : ∀ path, r.output = some path → path ≠ "" →
    fs.HoldsProgram (run fs files r).2 path optimized

/-- What a request comes to, by what becomes of the program. -/
structure Request.IsServed (r : Request) (fs : FileSystem σ) (files : σ) (p : Program) :
    Prop where
  refused : r.optimizer.Refuses p →
    (run fs files r).1.result = .ok 1 ∧ r.LeavesNoTrace fs files
  optimized : ¬ r.optimizer.Refuses p →
    ∃ out, (r.optimizer.optimize p).result = .ok out ∧ r.Completes fs files p out.program

theorem run_of_refuses (hfile : fs.HoldsProgram files r.program p)
    (hrefuses : r.optimizer.Refuses p) :
    (run fs files r).1.result = .ok 1 ∧ r.LeavesNoTrace fs files := by
  obtain ⟨text, v, htext, hv, hread⟩ := hfile
  have hreport : report r text = _ := report_eq hv hread
  obtain ⟨cause, hcause⟩ := hrefuses
  rw [reportRun] at hreport
  simp only [hcause] at hreport
  rw [Request.LeavesNoTrace, run_of_not_written htext (by rw [hreport]), hreport]
  exact ⟨rfl, rfl, rfl⟩

theorem summary_eq (before after : Nat) (stats : Stats) : summary before after stats
    = rule ++ s!"Ops: {before} -> {after} (removed {stats.removedOps})\n"
      ++ (String.join (stats.fused.entries.map countLine) ++ rule) := by
  rw [summary, String.append_assoc]

theorem completes_of_not_refuses (hfile : fs.HoldsProgram files r.program p) (hp : p.IsTyped)
    (hkeys : p.HasTextKeys)
    (hopen : ∀ path, r.output = some path → path ≠ "" → fs.IsOpenable files path)
    (hnot : ¬ r.optimizer.Refuses p) :
    ∃ out, (r.optimizer.optimize p).result = .ok out ∧ r.Completes fs files p out.program := by
  obtain ⟨text, v, htext, hv, hread⟩ := hfile
  obtain ⟨out, hout, hcount⟩ := r.exists_out hp hnot
  have hreport : report r text = _ := report_eq hv hread
  rw [reportRun] at hreport
  simp only [hout, summary_eq] at hreport
  have hreadable : out.program.IsReadable :=
    Optimizer.isReadable_optimize Template.standard_isSpelled
      (Program.isReadable_of_ofValue (Json.isReadable_of_read hv) hread hkeys) hout
  refine ⟨out, hout, ?_⟩
  rcases written_cases r out.program with ⟨hnone, hempty⟩ | ⟨path, hpath, hne, hwritten⟩
  · have hrun := run_of_not_written htext (by rw [hreport]; exact hnone)
    rw [hreport] at hrun
    exact {
      result := by rw [hrun]
      stdout := ⟨_, _, by rw [hrun], hcount⟩
      output := fun path hpath hne => absurd (hempty path hpath) hne }
  · obtain ⟨files', hwrite, hback⟩ := hopen path hpath hne (Json.write out.program.toValue)
    obtain ⟨w, hw, hagain⟩ := hreadable.read_write
    have hrun := run_of_written htext (by rw [hreport]; exact hwritten) hwrite
    rw [hreport] at hrun
    exact {
      result := by rw [hrun]
      stdout := ⟨_, _, by rw [hrun]; exact String.append_assoc, hcount⟩
      output := fun path' hpath' _ => by
        rw [hpath] at hpath'
        cases hpath'
        rw [hrun]
        exact ⟨_, w, hback, hw, hagain⟩ }

/-- A request on a file that holds a well-typed program is served, whatever is asked for: a program
that is refused leaves no trace, and an optimized one is found in the file that it was written to.
-/
theorem Request.isServed (hfile : fs.HoldsProgram files r.program p) (hp : p.IsTyped)
    (hkeys : p.HasTextKeys)
    (hopen : ∀ path, r.output = some path → path ≠ "" → fs.IsOpenable files path) :
    r.IsServed fs files p where
  refused := run_of_refuses hfile
  optimized := completes_of_not_refuses hfile hp hkeys hopen

end Report

/-! ## Requests on one folder -/

/-- Text files in one folder, by their names. -/
def FileSystem.folder : FileSystem (List (String × String)) where
  read files name := match files.lookup name with
    | some text => .ok text
    | none => .error (.system "no such file")
  write files name text := .ok ((name, text) :: files.filter (·.1 ≠ name))

theorem FileSystem.isOpenable_folder (files : List (String × String)) (name : String) :
    folder.IsOpenable files name := fun text => ⟨_, rfl, by simp [folder]⟩

/-- A folder with one program. -/
def summedFiles : List (String × String) :=
  [("program.json", Json.write (Program.ofOps summedConv).toValue)]

/-- A request to optimize that program into a new file. -/
def summedRequest : Request := { program := "program.json", output := some "fused.json" }

/-- The convolution takes in its summand, and what is left is written. -/
theorem isServed_summedConv :
    FileSystem.folder.HoldsProgram summedFiles summedRequest.program (.ofOps summedConv) ∧
    (Program.ofOps summedConv).IsTyped ∧ (Program.ofOps summedConv).HasTextKeys ∧
    (∀ path, summedRequest.output = some path → path ≠ "" →
      FileSystem.folder.IsOpenable summedFiles path) ∧
    ¬ summedRequest.optimizer.Refuses (.ofOps summedConv) ∧
    ((summedRequest.optimizer.fusions (.ofOps summedConv)).map
      fun f => (f.root, f.made.absorbed)) = [(0, [1])] ∧
    summedRequest.IsServed .folder summedFiles (.ofOps summedConv) := by
  have hreadable : (Program.ofOps summedConv).IsReadable := by
    refine Program.isReadable_ofOps ?_
    simp only [summedConv, List.forall_mem_cons]
    exact ⟨Op.isReadable_ofTexts .., Op.isReadable_ofTexts .., Op.isReadable_ofTexts .., by simp⟩
  obtain ⟨v, hv, hread⟩ := hreadable.read_write
  have hfile : FileSystem.folder.HoldsProgram summedFiles summedRequest.program
      (.ofOps summedConv) := ⟨_, v, rfl, hv, hread⟩
  have hp : (Program.ofOps summedConv).IsTyped := by decide
  have hkeys : (Program.ofOps summedConv).HasTextKeys := by decide
  have hopen : ∀ path, summedRequest.output = some path → path ≠ "" →
      FileSystem.folder.IsOpenable summedFiles path := fun path _ _ =>
    FileSystem.isOpenable_folder summedFiles path
  have hok : (summedRequest.optimizer.optimize (.ofOps summedConv)).result.isOk = true := by
    decide +kernel
  exact ⟨hfile, hp, hkeys, hopen, Optimizer.not_refuses_of_isOk hok, by decide +kernel,
    Request.isServed hfile hp hkeys hopen⟩

end CommandLine

end TensorFusion
