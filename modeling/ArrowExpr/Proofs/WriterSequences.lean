import ArrowExpr.Proofs.Writing
/-!
# Sequences of writing

A writer is told to write texts and nodes, in place or aside, and to forget what it has written, in
any order (`Writer.Command`). Between two commands functions may be registered, so each command comes
with the functions of that moment.

Each command but the reset appends its own text and nothing else (`obey_of_ne_reset`). So the buffer
is always the texts since the last reset, one behind the other, and what is written aside is what an
engine compiles (`writes_code`).
-/

namespace ArrowExpr

namespace Writer

/-- One thing that a writer is told to do. -/
inductive Command where
  | raw (text : String)
  | string (text : String)
  | literal (l : Literal)
  /-- Writes a node in place. -/
  | node (n : Node)
  /-- Writes a node aside and yields its text. -/
  | aside (n : Node)
  | reset

namespace Command

variable (registry : Registry)

/-- What the command adds to the buffer. -/
def text : Command → String
  | raw text => text
  | string text => Quoted.write Literal.codeEscape text
  | literal l => l.code
  | node n => n.code registry
  | aside _ | reset => ""

/-- What the command yields. -/
def answer : Command → Option String
  | aside n => some (n.code registry)
  | _ => none

end Command

/-- Does what a command says. -/
def obey (writer : Writer) (registry : Registry) : Command → Option String × Writer
  | .raw text => (none, writer.raw text)
  | .string text => (none, writer.string text)
  | .literal l => (none, writer.literal l)
  | .node n => (none, writer.node registry n)
  | .aside n =>
    let (text, writer) := writer.sub registry n
    (some text, writer)
  | .reset => (none, writer.reset)

/-- Does what several commands say, one after the other. -/
def obeyAll : List (Registry × Command) → Writer → List (Option String) × Writer
  | [], writer => ([], writer)
  | (registry, command) :: rest, writer =>
    let (answer, writer) := writer.obey registry command
    let (answers, writer) := obeyAll rest writer
    (answer :: answers, writer)

/-- The texts of commands, one behind the other. -/
def written (commands : List (Registry × Command)) : String :=
  String.join (commands.map fun (registry, command) => command.text registry)

/-- None of the commands is a reset. -/
def NoReset (commands : List (Registry × Command)) : Prop := ∀ registry, (registry, .reset) ∉ commands

variable {registry : Registry} {writer : Writer}

@[simp] theorem raw_empty (writer : Writer) : writer.raw "" = writer := by
  rw [raw, String.append_empty]

theorem sub_eq (registry : Registry) (writer : Writer) (n : Node) :
    writer.sub registry n = (n.code registry, writer) :=
  aside_eq (node_eq_raw registry n) writer

/-- A command other than the reset appends its text. -/
theorem obey_of_ne_reset {command : Command} (other : command ≠ .reset) :
    writer.obey registry command =
      (command.answer registry, writer.raw (command.text registry)) := by
  cases command with
  | raw text => rfl
  | string text => rfl
  | literal l => rfl
  | node n =>
    rw [obey, node_eq_raw]
    rfl
  | aside n =>
    rw [obey, sub_eq, Command.text, raw_empty]
    rfl
  | reset => exact absurd rfl other

theorem obey_fst (command : Command) :
    (writer.obey registry command).1 = command.answer registry := by
  cases command with
  | aside n =>
    rw [obey, sub_eq]
    rfl
  | _ => rfl

theorem answers_obeyAll (commands : List (Registry × Command)) (writer : Writer) :
    (writer.obeyAll commands).1 =
      commands.map fun (registry, command) => command.answer registry := by
  induction commands generalizing writer with
  | nil => rfl
  | cons first rest ih =>
    show (writer.obey first.1 first.2).1 :: _ = _
    rw [obey_fst, ih, List.map_cons]

theorem obeyAll_append (before after : List (Registry × Command)) (writer : Writer) :
    (writer.obeyAll (before ++ after)).2 = ((writer.obeyAll before).2.obeyAll after).2 := by
  induction before generalizing writer with
  | nil => rfl
  | cons first rest ih => exact ih (writer.obey first.1 first.2).2

/-- Without a reset the texts go behind what there is. -/
theorem obeyAll_of_noReset {commands : List (Registry × Command)} (noReset : NoReset commands)
    (writer : Writer) : (writer.obeyAll commands).2 = writer.raw (written commands) := by
  induction commands generalizing writer with
  | nil => exact (raw_empty writer).symm
  | cons first rest ih =>
    obtain ⟨registry, command⟩ := first
    have other : command ≠ .reset := fun same => noReset registry (same ▸ List.mem_cons_self)
    have later : NoReset rest := fun registry there =>
      noReset registry (List.mem_cons_of_mem _ there)
    show ((writer.obey registry command).2.obeyAll rest).2 = _
    rw [obey_of_ne_reset other, ih later, raw_raw, written, written, List.map_cons,
      String.join_cons]

/-- What was there before a reset does not count any more. -/
theorem obeyAll_of_reset {after : List (Registry × Command)} (noReset : NoReset after)
    (before : List (Registry × Command)) (registry : Registry) (writer : Writer) :
    (writer.obeyAll (before ++ (registry, .reset) :: after)).2 = empty.raw (written after) := by
  rw [obeyAll_append]
  exact obeyAll_of_noReset noReset empty

/-- The writer agrees with the code that is put together from the codes of the children.

* Whatever is in the buffer, a node written in place appends its code, and a node written aside
  yields its code and leaves the buffer as it is.
* After any commands the buffer holds the texts since the last reset, or else behind what there was
  at the start.
* A node that was written aside yields what an engine with the same functions compiles. -/
theorem writes_code :
    (∀ (registry : Registry) (n : Node) (writer : Writer),
      (writer.node registry n).source = writer.source ++ n.code registry ∧
      writer.sub registry n = (n.code registry, writer)) ∧
    ∀ (commands : List (Registry × Command)) (writer : Writer),
      (NoReset commands →
        (writer.obeyAll commands).2.source = writer.source ++ written commands) ∧
      (∀ before registry after, commands = before ++ (registry, .reset) :: after →
        NoReset after → (writer.obeyAll commands).2.source = written after) ∧
      ∀ (index : Nat) (engine : EngineId) (world : World) (n : Node),
        commands[index]? = some (world.registry engine, .aside n) →
        (writer.obeyAll commands).1[index]? = some (some (engine.compile n world)) := by
  refine ⟨fun registry n writer => ⟨?_, sub_eq registry writer n⟩, fun commands writer => ?_⟩
  · rw [node_eq_raw, source_raw]
  refine ⟨fun noReset => ?_, ?_, fun index engine world n there => ?_⟩
  · rw [obeyAll_of_noReset noReset, source_raw]
  · rintro before registry after rfl noReset
    rw [obeyAll_of_reset noReset, source_raw, empty, String.empty_append]
  · rw [answers_obeyAll, List.getElem?_map, there, engine.compile_eq_code]
    rfl

/-- A call is written aside between two pieces of text, after a reset and before and after its
function is registered. -/
theorem writes_code_after_reset :
    let before : World := (Builder.empty.build .empty).2
    let after : World := (EngineId.register ⟨0⟩ ⟨"f", fun _ => "F", fun _ _ => .succeed .null⟩ before).2
    let call : Node := .call "f" [.name "x"]
    let commands : List (Registry × Command) :=
      [(before.registry ⟨0⟩, .raw "lost"), (before.registry ⟨0⟩, .reset),
        (before.registry ⟨0⟩, .raw "a = "), (before.registry ⟨0⟩, .aside call),
        (after.registry ⟨0⟩, .aside call), (after.registry ⟨0⟩, .node (.list [call])),
        (after.registry ⟨0⟩, .raw ";")]
    (empty.obeyAll commands).2.source = "a = [F];" ∧
    (empty.obeyAll commands).1[3]? = some (some "f($x)") ∧
    (empty.obeyAll commands).1[4]? = some (some "F") := by
  intro before after call commands
  obtain ⟨_, since, asides⟩ := writes_code.2 commands empty
  refine ⟨?_, ?_, ?_⟩
  · have noReset : NoReset (commands.drop 2) := by
      intro registry there
      simp [commands] at there
    exact since [(before.registry ⟨0⟩, .raw "lost")] _ _ rfl noReset
  · exact asides 3 ⟨0⟩ before call rfl
  · exact asides 4 ⟨0⟩ after call rfl

end Writer

end ArrowExpr
