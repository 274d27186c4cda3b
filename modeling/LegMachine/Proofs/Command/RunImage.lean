import LegMachine.Proofs.Command.Dump
import LegMachine.Proofs.Exec.Footprint
import LegMachine.Proofs.Exec.Run
import LegMachine.Proofs.Exec.Safety
import LegMachine.Proofs.Machine.Loading

/-!
# What a run of an image leaves behind

The tool starts the machine that the options and the configuration describe (`loadMachine_apply`)
and runs it. The standard services never fault, so the run takes as many steps as it may; what it
has printed is what the services have printed that were called in these steps, one behind the other
(`console_of_takes`). So the report of the tool is known from the steps of the machine
(`runTool_reports`), and what its dump shows from the registers (`splitAt_dump`).
-/

namespace LegMachine.Command

/-! ## The standard services -/

def nextAction? (m : Machine) : Option Action :=
  match m.memory.load 4 m.cpu.pc with
  | .ok w => (standardEnvironment.decode w).map (·.descriptor.action)
  | .error _ => none

/-- The argument of a service as a signed number in decimal. -/
def integerText (p : Processor) : String :=
  String.ofList (Text.decimal (p.x argumentRegister).toInt)

/-- The character whose number is the low byte of the argument of a service. -/
def characterText (p : Processor) : String :=
  String.singleton (Char.ofNat ((p.x argumentRegister).setWidth 8).toNat)

/-- What a service prints: one an integer, one a character, and the others nothing. -/
def serviceOutput (p : Processor) : String :=
  if p.x serviceRegister = 1 then integerText p
  else if p.x serviceRegister = 11 then characterText p
  else ""

def stepOutput (m : Machine) : String :=
  if nextAction? m = some .svc then serviceOutput m.cpu else ""

def output (k : Nat) (m : Machine) : String :=
  String.join ((List.range k).map fun j => stepOutput (afterSteps standardEnvironment j m))

theorem dispatch_standardServices (number : Word) (m : Machine) :
    standardServices.dispatch number m =
      if number = 1 then .done { m with console := m.console ++ integerText m.cpu }
      else if number = 11 then .done { m with console := m.console ++ characterText m.cpu }
      else if number = 10 then .done (m.mapCpu fun p => { p with halted := true })
      else .trapped (.invalidService number) m := by
  by_cases h1 : number = 1
  · subst h1
    rfl
  by_cases h11 : number = 11
  · subst h11
    rw [if_neg (by decide), if_pos rfl, characterText, String.append_singleton]
    rfl
  by_cases h10 : number = 10
  · subst h10
    rfl
  · have hnumbers : standardServices.services.map (·.number) = [10, 11, 1] := rfl
    have hfind : standardServices.find? number = none := by
      rw [Registry.find?, List.find?_eq_none]
      intro service hservice hnumber
      have hmem := List.mem_map_of_mem (f := Service.number) hservice
      rw [hnumbers, beq_iff_eq.1 hnumber] at hmem
      rcases List.mem_cons.1 hmem with h | h
      · exact h10 h
      · rcases List.mem_cons.1 h with h | h
        · exact h11 h
        · exact h1 (List.mem_singleton.1 h)
    rw [Registry.dispatch, hfind, if_neg h1, if_neg h11, if_neg h10]

/-- The activity prints a text behind what `m` has printed if it is done, and nothing if it traps;
it does not fault. -/
def Prints {ε : Type} (m : Machine) (text : String) : Outcome ε → Prop
  | .done after => after.console = m.console ++ text
  | .trapped _ after => after.console = m.console
  | .fault _ _ => False

theorem dispatch_prints (m : Machine) :
    Prints m (serviceOutput m.cpu) (standardServices.dispatch (m.cpu.x serviceRegister) m) := by
  rw [dispatch_standardServices, serviceOutput]
  generalize m.cpu.x serviceRegister = number
  by_cases h1 : number = 1
  · rw [if_pos h1, if_pos h1]
    rfl
  rw [if_neg h1, if_neg h1]
  by_cases h11 : number = 11
  · rw [if_pos h11, if_pos h11]
    rfl
  rw [if_neg h11, if_neg h11]
  by_cases h10 : number = 10
  · rw [if_pos h10]
    exact String.append_empty.symm
  · rw [if_neg h10]
    rfl

/-! ## Steps and their output -/

theorem nextAction?_eq {m : Machine} {d : Decoded} (h : m.Reads standardEnvironment d) :
    nextAction? m = some d.descriptor.action := by
  obtain ⟨w, hfetch, hdecode⟩ := h
  simp only [nextAction?, hfetch, hdecode, Option.map_some]

theorem exists_instruction {m : Machine} {d : Decoded} (h : m.Reads standardEnvironment d) :
    ∃ i, Instruction.ofOperands d.descriptor.action d.operands = .ok i := by
  obtain ⟨w, -, hdecode⟩ := h
  dsimp only [standardEnvironment] at hdecode
  exact exists_ofOperands_of_decode? hdecode

theorem isReadable_of_reads {m : Machine} {d : Decoded} (h : m.Reads standardEnvironment d) :
    d.descriptor.isReadable = true := by
  obtain ⟨w, -, hdecode⟩ := h
  dsimp only [standardEnvironment] at hdecode
  exact isReadable_of_decode? hdecode

/-- The call of a service prints what the service does, and no other instruction prints. -/
theorem run_prints {m : Machine} {d : Decoded} (hreads : m.Reads standardEnvironment d)
    {i : Instruction} (hi : Instruction.ofOperands d.descriptor.action d.operands = .ok i) :
    Prints m (stepOutput m) (i.run standardServices m.advancePc) := by
  rw [stepOutput, nextAction?_eq hreads]
  by_cases hservice : i = .service
  · subst hservice
    rw [Instruction.ofOperands_eq_service.1 hi, if_pos rfl]
    exact dispatch_prints m.advancePc
  · have haction : d.descriptor.action ≠ .svc := by
      intro hsvc
      rw [hsvc] at hi
      exact hservice (Except.ok.inj hi).symm
    have hconsole := (Instruction.run_changesOnly hservice standardServices m.advancePc).console
    have hregular := Instruction.regular_run hservice standardServices m.advancePc
    rw [if_neg fun h => haction (Option.some.inj h)]
    cases hrun : i.run standardServices m.advancePc with
    | done after =>
      rw [hrun] at hconsole
      exact hconsole.trans String.append_empty.symm
    | trapped cause after =>
      rw [hrun] at hconsole
      exact hconsole
    | fault f after => exact absurd hrun (hregular f after)

theorem step_prints (m : Machine) : Prints m (stepOutput m) (step standardEnvironment m) := by
  rcases reads_or_trapped standardEnvironment m with ⟨d, hreads⟩ | ⟨trap, htrap, -⟩
  · obtain ⟨i, hi⟩ := exists_instruction hreads
    have hprints := run_prints hreads hi
    cases hrun : i.run standardServices m.advancePc with
    | done after =>
      rw [hrun] at hprints
      rw [step_of_run hreads hi hrun]
      exact hprints
    | trapped cause after =>
      rw [hrun] at hprints
      rw [step_of_trapped_run hreads hi hrun,
        Decoded.trap_of_isReadable (isReadable_of_reads hreads)]
      exact hprints
    | fault f after =>
      rw [hrun] at hprints
      exact hprints.elim
  · rw [htrap]
    rfl

theorem step_ne_fault (m : Machine) (cause : Fault) (after : Machine) :
    step standardEnvironment m ≠ .fault cause after := by
  intro hfault
  have hprints := step_prints m
  rw [hfault] at hprints
  exact hprints

theorem output_succ (k : Nat) (m : Machine) :
    output (k + 1) m = output k m ++ stepOutput (afterSteps standardEnvironment k m) := by
  simp [output, List.range_succ, String.join_append]

/-- The steps that are taken print what each of them prints. -/
theorem console_of_takes {k : Nat} {m : Machine} (h : Takes standardEnvironment k m) :
    (afterSteps standardEnvironment k m).console = m.console ++ output k m := by
  induction k with
  | zero => exact String.append_empty.symm
  | succ k ih =>
    have hprints := step_prints (afterSteps standardEnvironment k m)
    rw [(h k (Nat.lt_succ_self k)).2] at hprints
    rw [hprints, ih (h.mono (Nat.le_succ k)), output_succ, String.append_assoc]

/-! ## The machine before its first step -/

namespace RunOptions

/-- Where the image is placed: the command line comes before the configuration. -/
def loadBase (o : RunOptions) (c : RunConfig) : Word :=
  match o.base with
  | some base => base
  | none => c.loadAddress

/-- Where the machine begins: the command line comes before the configuration, and both before the
place of the image. -/
def startPc (o : RunOptions) (c : RunConfig) : Word :=
  match o.entry, c.entry with
  | some entry, _ => entry
  | none, some entry => entry
  | none, none => o.loadBase c

/-- How many steps there may be: the command line comes before the configuration. -/
def limit (o : RunOptions) (c : RunConfig) : Nat :=
  match o.maxSteps with
  | some limit => limit
  | none => c.maxSteps

/-- The machine before its first step. All registers are zero, and zeros follow the image. -/
def start (o : RunOptions) (c : RunConfig) (image : ByteArray) : Machine where
  cpu := {
    pc := o.startPc c
    flags := .clear
    integers := .replicate 32 0
    floats := .replicate 32 0
    delay := .empty
    halted := false
    config := ⟨o.delayedBranching || c.config.delayedBranching⟩ }
  memory := ⟨⟨image.data ++ Array.replicate (c.memorySize - image.size) 0⟩, o.loadBase c⟩
  console := ""

variable {o : RunOptions} {c : RunConfig} {image : ByteArray}

theorem maxSteps_apply : (o.apply c).maxSteps = o.limit c := by
  unfold apply limit
  cases o.maxSteps <;> rfl

theorem loadMachine_apply (hfits : image.size ≤ c.memorySize) :
    loadMachine (o.apply c) image.toList = .ok (o.start c image) := by
  have hbase : (o.apply c).loadAddress = o.loadBase c := by
    unfold apply loadBase
    cases o.base <;> rfl
  have hpc : (o.apply c).entry.getD (o.apply c).loadAddress = o.startPc c := by
    rw [hbase]
    unfold apply startPc
    cases o.entry <;> cases c.entry <;> rfl
  have hconfig : (o.apply c).config = ⟨o.delayedBranching || c.config.delayedBranching⟩ := by
    rw [Bool.or_comm]
    rfl
  rw [loadMachine, hpc, hbase, hconfig]
  show (((Memory.zeroed c.memorySize (o.loadBase c)).place (o.loadBase c) image.toList).map _) = _
  rw [Memory.place_zeroed hfits]
  rfl

end RunOptions

/-! ## The report -/

/-- The report of the tool if it stops behind `k` steps. It tells of a trap if the step behind them
traps although the run may go on, and what is dumped then is what this step has left. -/
inductive ReportsAt (limit : Nat) (start : Machine) (k : Nat) : Report → Prop
  | trapped {trap : Trap} {after : Machine} (hk : k < limit)
      (hhalted : (afterSteps standardEnvironment k start).cpu.halted = false)
      (hstep : step standardEnvironment (afterSteps standardEnvironment k start) =
        .trapped trap after) :
      ReportsAt limit start k
        ⟨0, output k start, "TRAP: " ++ trap.message ++ "\n" ++ dump after.cpu, none⟩
  | stopped (h : k = limit ∨ (afterSteps standardEnvironment k start).cpu.halted = true) :
      ReportsAt limit start k
        ⟨0, output k start, dump (afterSteps standardEnvironment k start).cpu, none⟩

/-- Where the next step traps, the report tells of that trap. -/
theorem ReportsAt.eq_of_trapped {limit k : Nat} {start after : Machine} {trap : Trap}
    {report : Report} (h : ReportsAt limit start k report) (hk : k < limit)
    (hhalted : (afterSteps standardEnvironment k start).cpu.halted = false)
    (hstep : step standardEnvironment (afterSteps standardEnvironment k start) =
      .trapped trap after) :
    report = ⟨0, output k start, "TRAP: " ++ trap.message ++ "\n" ++ dump after.cpu, none⟩ := by
  cases h with
  | trapped _ _ hstep' =>
    rw [hstep] at hstep'
    obtain ⟨rfl, rfl⟩ := Outcome.trapped.inj hstep'
    rfl
  | stopped h =>
    rcases h with rfl | htrue
    · exact absurd hk (Nat.lt_irrefl k)
    · rw [hhalted] at htrue
      cases htrue

theorem reportsAt_of_stops {limit k : Nat} {start : Machine} {r : Run}
    (hconsole : start.console = "") (htakes : Takes standardEnvironment k start)
    (hstops : Stops standardEnvironment limit start k r) :
    ReportsAt limit start k (reportRun r) := by
  have hprinted : (afterSteps standardEnvironment k start).console = output k start := by
    rw [console_of_takes htakes, hconsole, String.empty_append]
  cases hstops with
  | limit hk =>
    rw [reportRun, hprinted]
    exact .stopped (.inl hk)
  | halted _ hhalted =>
    rw [reportRun, hprinted]
    exact .stopped (.inr hhalted)
  | @trapped trap after hk hhalted hstep =>
    have hsame := step_prints (afterSteps standardEnvironment k start)
    rw [hstep] at hsame
    rw [reportRun, hsame.trans hprinted]
    exact .trapped hk hhalted hstep
  | fault _ _ hstep => exact absurd hstep (step_ne_fault _ _ _)

/-- The tool takes as many steps as it may and reports what they have left and printed; a run that
its limit ends can be continued as if the limit had been higher. -/
theorem runTool_reports {files : Files} {args : List String} {o : RunOptions} {c : RunConfig}
    {image : ByteArray} (hargs : RunOptions.ofArguments args = .ok o)
    (hconfig : readConfig files o = .ok c) (himage : readFile files o.imagePath = .ok image)
    (hfits : image.size ≤ c.memorySize) :
    let start := o.start c image
    let limit := o.limit c
    (∃ k, IsLeast {k | MustStop standardEnvironment limit start k} k ∧
      Takes standardEnvironment k start ∧ ReportsAt limit start k (runTool files args)) ∧
    ∀ a b, (run standardEnvironment a start).ending = .limit →
      runFrom standardEnvironment a b (run standardEnvironment a start).machine =
        run standardEnvironment (a + b) start := by
  intro start limit
  have htool : runTool files args = reportRun (run standardEnvironment limit start) := by
    simp only [runTool, hargs, runImage, hconfig, himage, RunOptions.loadMachine_apply hfits,
      RunOptions.maxSteps_apply]
    rfl
  obtain ⟨k, htakes, hstops⟩ := run_stops standardEnvironment limit start
  refine ⟨⟨k, isLeast_mustStop htakes hstops fun _ _ => step_ne_fault _ _ _, htakes, ?_⟩,
    fun a b h => runFrom_of_limit h b⟩
  rw [htool]
  exact reportsAt_of_stops rfl htakes hstops

/-- A run that prints an integer and then comes to a word that is no instruction. Its configuration
leaves room for these four words only. -/
theorem runTool_reports_printedInteger :
    let image : ByteArray := ⟨#[7, 0, 31, 32, 1, 0, 31, 33, 0, 0, 0, 88, 0, 0, 0, 252]⟩
    let files : Files := fun path =>
      if path = "prog.bin" then .ok image
      else if path = "run.json" then .ok "\x7b\"memory_size\": 16\x7d".toUTF8
      else .error .notFound
    let args := ["--config", "run.json", "prog.bin"]
    let o : RunOptions := ⟨some "run.json", none, none, false, none, "prog.bin"⟩
    let c : RunConfig := { RunConfig.standard with memorySize := 16 }
    let start := o.start c image
    let dumped :=
      "X0  = 0x00000007  X1  = 0x00000000  X2  = 0x00000000  X3  = 0x00000000\n" ++
      "X4  = 0x00000000  X5  = 0x00000000  X6  = 0x00000000  X7  = 0x00000000\n" ++
      "X8  = 0x00000001  X9  = 0x00000000  X10 = 0x00000000  X11 = 0x00000000\n" ++
      "X12 = 0x00000000  X13 = 0x00000000  X14 = 0x00000000  X15 = 0x00000000\n" ++
      "X16 = 0x00000000  X17 = 0x00000000  X18 = 0x00000000  X19 = 0x00000000\n" ++
      "X20 = 0x00000000  X21 = 0x00000000  X22 = 0x00000000  X23 = 0x00000000\n" ++
      "X24 = 0x00000000  X25 = 0x00000000  X26 = 0x00000000  X27 = 0x00000000\n" ++
      "X28 = 0x00000000  X29 = 0x00000000  X30 = 0x00000000  X31 = 0x00000000\n" ++
      "PC  = 0x0000000c  flags = Flags(0x0)\n"
    RunOptions.ofArguments args = .ok o ∧ readConfig files o = .ok c ∧
      readFile files o.imagePath = .ok image ∧ image.size ≤ c.memorySize ∧
      runTool files args = ⟨0, "7",
        "TRAP: no instruction matches word 0xfc000000 at 0x0000000c (.word 0xfc000000)\n" ++ dumped,
        none⟩ ∧
      (run standardEnvironment 2 start).ending = .limit ∧
      runFrom standardEnvironment 2 5 (run standardEnvironment 2 start).machine =
        run standardEnvironment 7 start := by
  intro image files args o c start dumped
  have hargs : RunOptions.ofArguments args = .ok o := by decide +kernel
  have hconfig : readConfig files o = .ok c := by decide +kernel
  have himage : readFile files o.imagePath = .ok image := by decide
  have hfits : image.size ≤ c.memorySize := by decide
  obtain ⟨⟨k, hleast, -, hreports⟩, hcontinues⟩ := runTool_reports hargs hconfig himage hfits
  let afterFirst : Machine :=
    { start with cpu := { start.cpu with pc := 4, integers := (Vector.replicate 32 0).set 0 7 } }
  let afterSecond : Machine :=
    { start with cpu := { start.cpu with
      pc := 8, integers := ((Vector.replicate 32 0).set 0 7).set 8 1 } }
  let last : Machine :=
    { afterSecond with cpu := { afterSecond.cpu with pc := 12 }, console := "7" }
  let trap : Trap := ⟨12, ".word 0xfc000000", .decodeMiss 0xFC000000⟩
  obtain ⟨hfirst, hsecond, hthird, htrap⟩ :
      step standardEnvironment start = .done afterFirst ∧
        step standardEnvironment afterFirst = .done afterSecond ∧
        step standardEnvironment afterSecond = .done last ∧
        step standardEnvironment last = .trapped trap last := by
    decide +kernel
  obtain ⟨htakesOne, hone⟩ : Takes standardEnvironment 1 start ∧
      afterSteps standardEnvironment 1 start = afterFirst := takes_zero.extend rfl rfl hfirst
  obtain ⟨htakesTwo, htwo⟩ : Takes standardEnvironment 2 start ∧
      afterSteps standardEnvironment 2 start = afterSecond := htakesOne.extend hone rfl hsecond
  obtain ⟨htakes, hthree⟩ : Takes standardEnvironment 3 start ∧
      afterSteps standardEnvironment 3 start = last := htakesTwo.extend htwo rfl hthird
  rw [← hthree] at htrap
  have hhalted : (afterSteps standardEnvironment 3 start).cpu.halted = false := by
    rw [hthree]
    rfl
  have hstops : Stops standardEnvironment (o.limit c) start 3 _ :=
    .trapped (by decide) hhalted htrap
  obtain rfl : k = 3 :=
    hleast.unique (isLeast_mustStop htakes hstops fun _ _ => step_ne_fault _ _ _)
  have hprinted : output 3 start = "7" := by
    have hconsole := console_of_takes htakes
    rw [hthree] at hconsole
    exact String.empty_append.symm.trans hconsole.symm
  have hlimit : (run standardEnvironment 2 start).ending = .limit := by
    rw [run, runFrom_of_takes htakesTwo (Nat.le_refl 2)]
    rfl
  have hdump : dump last.cpu = dumped := by
    -- compared as lists of characters, since strings are compared byte by byte
    change String.ofList _ = String.ofList _ ++ String.ofList _ ++ String.ofList _ ++
      String.ofList _ ++ String.ofList _ ++ String.ofList _ ++ String.ofList _ ++
      String.ofList _ ++ String.ofList _
    simp only [← String.ofList_append]
    refine congrArg String.ofList ?_
    decide +kernel
  have hline : "TRAP: " ++ trap.message ++ "\n" =
      "TRAP: no instruction matches word 0xfc000000 at 0x0000000c (.word 0xfc000000)\n" := by
    decide +kernel
  refine ⟨hargs, hconfig, himage, hfits, ?_, hlimit, hcontinues 2 5 hlimit⟩
  rw [hreports.eq_of_trapped (by decide) hhalted htrap, hprinted, hline, hthree, hdump]

end LegMachine.Command
