import JobStealer.Monitor

/-!
# The logger all threads share

A statement such as `HTL_LOG(a << b)` collects its pieces in a `LogBuffer` of its
own, whose destructor hands the whole message to `ThreadSafeLogger::log`. That
writes it to `std::cout` under `mMutex`, a character at a time here. A buffer that
was moved from hands over no pieces at all.

`messages_whole`: whatever the threads do, the output is whole messages, those of
one thread in its order, and at most the beginning of one more.
-/

namespace JobStealer
open Interleaving

/-- The pieces sent to one `LogBuffer`, in order. -/
abbrev LogBuffer := List (List Char)

/-- What its `stringstream` holds in the end. -/
def LogBuffer.str (buf : LogBuffer) : List Char := buf.flatten

namespace ThreadSafeLogger

/-- `log`: the characters still to write; then `flush`. -/
def code : Monitor.Code (List Char) LogBuffer (List Char) Unit Unit where
  enter := LogBuffer.str
  step _
    | c :: rest, cout => some (cout ++ [c], .inl rest)
    | [], cout => some (cout, .inr ())

def contract : Monitor.Contract code (List Char) fun _ _ _ => True where
  Holds cout text := cout = text
  Mid buf text _ rest cout := ∃ begun, buf.str = begun ++ rest ∧ cout = text ++ begun
  Spec buf text _ _ text' := text' = text ++ buf.str
  enter := by
    rintro buf cout text rfl
    exact ⟨[], rfl, (List.append_nil _).symm⟩
  step := by
    rintro buf text _ rest _ _ ⟨begun, split, rfl⟩ _
    cases rest with
    | nil =>
      rw [List.append_nil] at split
      exact ⟨_, _, rfl, _, by rw [split], rfl⟩
    | cons c rest =>
      refine ⟨_, _, rfl, begun ++ [c], ?_, List.append_assoc ..⟩
      rw [split, List.append_assoc]
      rfl

variable {T : Type}

/-- The messages that are out, in order. -/
def messages (log : List (Monitor.Entry T LogBuffer Unit Unit)) : List (List Char) :=
  log.reverse.map fun entry => entry.op.str

theorem serial_messages {log : List (Monitor.Entry T LogBuffer Unit Unit)} {text : List Char}
    (h : contract.Serial [] log text) : text = (messages log).flatten := by
  induction h with
  | nil => rfl
  | cons _ spec ih =>
    rw [spec, ih]
    simp [messages]

/-- The output is the messages logged so far and, while a thread holds the mutex, the
beginning of the one it is writing; a thread's messages are in the order it logged
them, each once. -/
theorem messages_whole [DecidableEq T]
    {s : Monitor.State T (List Char) LogBuffer (List Char) Unit Unit}
    (h : (Monitor.machine code []).Reachable s) :
    (s.shared.mutex = none → s.shared.obj = (messages s.shared.log).flatten) ∧
    (∀ t, s.shared.mutex = some t → ∃ buf begun rest, (s.pc t).pending = [buf] ∧
      buf.str = begun ++ rest ∧ s.shared.obj = (messages s.shared.log).flatten ++ begun) ∧
    ∀ t, s.shared.callsOf t = (s.pc t).pending ++ s.shared.logOf t := by
  have obeys : (Monitor.machine code []).Reach (Monitor.Obeys fun _ _ _ => True) s :=
    h.mono fun _ _ _ _ _ _ _ => trivial
  have begins : contract.Holds [] [] := rfl
  obtain ⟨text, inv⟩ := Monitor.Contract.serial begins obeys
  have whole := serial_messages inv.serial
  refine ⟨fun free => (inv.free free).trans whole, ?_, Monitor.calls_logged h⟩
  intro t held
  have stands := inv.stands t
  cases call : s.pc t with
  | idle | waiting buf =>
    rw [call] at stands
    exact absurd held stands
  | inside buf seen rest =>
    rw [call] at stands
    obtain ⟨_, begun, split, out⟩ := stands
    exact ⟨buf, begun, rest, rfl, split, by rw [← whole]; exact out⟩
  | leaving buf seen ans =>
    rw [call] at stands
    obtain ⟨_, text', spec, holds⟩ := stands
    exact ⟨buf, buf.str, [], rfl, (List.append_nil _).symm, by rw [← whole]; exact holds.trans spec⟩

/-- A second thread logs while the first one is in the middle of its message. -/
theorem messages_whole_two : ∃ s,
    (Monitor.machine (T := Bool) code []).Reachable s ∧ s.shared.mutex = none ∧
    s.shared.obj = ['a', 'b', '/', 'c', '/'] := by
  let first : Bool × LogBuffer × Unit := (false, [['a', 'b'], ['/']], ())
  let second : Bool × LogBuffer × Unit := (true, [['c'], ['/']], ())
  have run : ((Monitor.machine code []).run
      (.replicate 3 first ++ .replicate 1 second ++ .replicate 4 first ++ .replicate 5 second)
      (Monitor.machine code []).start).map
        (fun s => (s.shared.mutex, messages s.shared.log)) =
      some (none, [['a', 'b', '/'], ['c', '/']]) := by
    decide +kernel
  obtain ⟨s, hs, same⟩ := Option.map_eq_some_iff.mp run
  obtain ⟨free, out⟩ := Prod.mk.inj same
  have reach := Machine.exec_start _ hs
  have whole := (messages_whole reach).1 free
  exact ⟨s, reach, free, by rw [whole, out]; rfl⟩

end ThreadSafeLogger
end JobStealer
