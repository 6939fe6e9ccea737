import ImportAlias.Proofs.NestedLogs
import Mathlib.Data.List.Perm.Basic

/-!
# Callbacks that are called again

A nested callback flushes its buffer each time it is called, and the buffer is not
emptied. So every call delivers all the texts that have been written before it,
those again that an earlier call has delivered. Each text is delivered once just
if no text has two calls behind it.
-/

namespace ImportAlias.Pipeline

/-- Something that is done with a callback. -/
inductive Operation where
  | write (text : String)
  | call (args : List Value)

namespace Operation

def perform (callback : Callback) : Operation → Resolution Unit
  | write text => callback.write text
  | call args => callback.invoke args

def isCall : Operation → Bool
  | write _ => false
  | call _ => true

end Operation

/-- The texts that have been written before each call, if there were some before the first
operation. -/
def heard (texts : List String) : List Operation → List (List String)
  | [] => []
  | .write text :: rest => heard (texts ++ [text]) rest
  | .call _ :: rest => texts :: heard texts rest

/-- The texts that are written before the last call. -/
def due (operations : List Operation) : List String :=
  (heard [] operations).getLast?.getD []

/-- No text has two calls behind it. -/
def CalledOnce (operations : List Operation) : Prop :=
  ∀ text rest, .write text :: rest <:+ operations → rest.countP Operation.isCall ≤ 1

/-- Over some operations, the lines of a callback tell every text that is written before a call
once and in the order of writing, and besides texts only the messages above the lines of a call. -/
structure TellsOnce (level : Level) (operations : List Operation) (lines : List String) : Prop where
  each : lines.Perm
    ((heard [] operations).flatMap level.heading ++ (due operations).map level.indent)
  inOrder : ((due operations).map level.indent).Sublist lines

theorem heard_append (texts : List String) (operations : List Operation) :
    heard texts operations = (heard [] operations).map (texts ++ ·) := by
  induction operations generalizing texts with
  | nil => rfl
  | cons operation rest ih =>
    cases operation with
    | write text =>
      rw [heard, heard, ih, ih ([] ++ [text]), List.map_map]
      simp [Function.comp_def]
    | call args => simp [heard, ih texts]

theorem heard_write (text : String) (rest : List Operation) :
    heard [] (.write text :: rest) = (heard [] rest).map (text :: ·) :=
  heard_append [text] rest

theorem length_heard (texts : List String) (operations : List Operation) :
    (heard texts operations).length = operations.countP Operation.isCall := by
  induction operations generalizing texts with
  | nil => rfl
  | cons operation rest ih =>
    cases operation <;> simp [heard, Operation.isCall, List.countP_cons, ih]

theorem due_call (args : List Value) (rest : List Operation) :
    due (.call args :: rest) = due rest := by
  rw [due, due, heard, List.getLast?_cons]
  cases (heard [] rest).getLast? <;> rfl

theorem length_due_write (text : String) (rest : List Operation) :
    (due (.write text :: rest)).length =
      if heard [] rest = [] then 0 else (due rest).length + 1 := by
  rw [due, due, heard_write, List.getLast?_map]
  cases h : (heard [] rest).getLast? with
  | none => simp [List.getLast?_eq_none_iff.mp h]
  | some last =>
    have hne : heard [] rest ≠ [] := by
      intro hn
      simp [hn] at h
    simp [hne]

theorem length_flatten_write (text : String) (rest : List Operation) :
    (heard [] (.write text :: rest)).flatten.length =
      (heard [] rest).length + (heard [] rest).flatten.length := by
  rw [heard_write]
  induction heard [] rest with
  | nil => rfl
  | cons texts others ih =>
    simp only [List.map_cons, List.flatten_cons, List.length_append, List.length_cons, ih]
    omega

theorem length_due_le (operations : List Operation) :
    (due operations).length ≤ (heard [] operations).flatten.length := by
  rw [due]
  cases h : (heard [] operations).getLast? with
  | none => exact Nat.zero_le _
  | some last => exact (List.sublist_flatten_of_mem (List.mem_of_getLast? h)).length_le

theorem calledOnce_write {text : String} {rest : List Operation} :
    CalledOnce (.write text :: rest) ↔ (heard [] rest).length ≤ 1 ∧ CalledOnce rest := by
  rw [length_heard]
  constructor
  · intro h
    refine ⟨h text rest List.suffix_rfl, ?_⟩
    intro other behind hs
    exact h other behind (hs.trans (List.suffix_cons _ _))
  · rintro ⟨hfirst, hrest⟩ other behind hs
    obtain he | hs := List.suffix_cons_iff.mp hs
    · obtain ⟨-, rfl⟩ := List.cons.inj he
      exact hfirst
    · exact hrest other behind hs

theorem calledOnce_call {args : List Value} {rest : List Operation} :
    CalledOnce (.call args :: rest) ↔ CalledOnce rest := by
  constructor
  · intro h other behind hs
    exact h other behind (hs.trans (List.suffix_cons _ _))
  · intro h other behind hs
    obtain he | hs := List.suffix_cons_iff.mp hs
    · cases he
    · exact h other behind hs

theorem calledOnce_of_length {operations : List Operation}
    (h : (heard [] operations).flatten.length = (due operations).length) :
    CalledOnce operations := by
  induction operations with
  | nil =>
    intro text rest hs
    simp at hs
  | cons operation rest ih =>
    cases operation with
    | write text =>
      have hle := length_due_le rest
      rw [length_flatten_write, length_due_write] at h
      rw [calledOnce_write]
      by_cases hnil : heard [] rest = []
      · have hlength : (heard [] rest).flatten.length = (due rest).length := by
          simp [hnil, due]
        exact ⟨by simp [hnil], ih hlength⟩
      · rw [if_neg hnil] at h
        have hpos : 0 < (heard [] rest).length := List.length_pos_iff.mpr hnil
        exact ⟨by omega, ih (by omega)⟩
    | call args =>
      rw [due_call] at h
      exact calledOnce_call.mpr (ih h)

theorem flatten_heard {operations : List Operation} (h : CalledOnce operations) :
    (heard [] operations).flatten = due operations := by
  induction operations with
  | nil => rfl
  | cons operation rest ih =>
    cases operation with
    | write text =>
      obtain ⟨hone, -⟩ := calledOnce_write.mp h
      rw [due, heard_write]
      -- at most one call is left
      cases hheard : heard [] rest with
      | nil => rfl
      | cons texts others =>
        rw [hheard, List.length_cons] at hone
        obtain rfl := List.length_eq_zero_iff.mp (by omega : others.length = 0)
        simp
    | call args =>
      rw [due_call, ← ih (calledOnce_call.mp h)]
      rfl

section Lines

variable (level : Level) (texts : List (List String))

theorem perm_flatMap_flushed :
    (texts.flatMap (flushed level.message level.isOptional)).Perm
      (texts.flatMap level.heading ++ texts.flatten.map level.indent) := by
  have hlines : texts.flatMap (flushed level.message level.isOptional) =
      texts.flatMap fun lines => level.heading lines ++ lines.map level.indent :=
    congrArg (texts.flatMap ·) (funext level.flushed_eq)
  rw [hlines, List.map_flatten, ← List.flatMap_def]
  exact (List.flatMap_append_perm texts level.heading _).symm

theorem sublist_flatMap_flushed :
    (texts.flatten.map level.indent).Sublist
      (texts.flatMap (flushed level.message level.isOptional)) := by
  induction texts with
  | nil => exact List.Sublist.refl []
  | cons first rest ih =>
    rw [List.flatMap_cons, List.flatten_cons, List.map_append, Level.flushed_eq]
    exact (List.sublist_append_right _ _).append ih

end Lines

/-- What all calls flush tells every text once exactly if no text has two calls behind it. -/
theorem tellsOnce_iff (level : Level) (operations : List Operation) :
    TellsOnce level operations
        ((heard [] operations).flatMap (flushed level.message level.isOptional)) ↔
      CalledOnce operations := by
  have hperm := perm_flatMap_flushed level (heard [] operations)
  constructor
  · intro h
    have hlength := (hperm.symm.trans h.each).length_eq
    simp only [List.length_append, List.length_map] at hlength
    exact calledOnce_of_length (by omega)
  · intro h
    have hsublist := sublist_flatMap_flushed level (heard [] operations)
    rw [flatten_heard h] at hperm hsublist
    exact ⟨hperm, hsublist⟩

/-- What a channel holds, if it is there. -/
def Channel.content (channel : Channel) (trail : Trail) : Option (List String) :=
  match channel with
  | caller => some trail.log
  | buffer index => trail.buffers[index]?

namespace Callback

/-- The same callback with nothing behind it. -/
def bare (callback : Callback) : Callback :=
  ⟨fun _ => pure (), callback.carried⟩

/-- Calling a callback leaves a channel as it is. -/
def Spares (callback : Callback) (channel : Channel) : Prop :=
  ∀ (args : List Value) (trail : Trail),
    channel.content ((callback.invoke args).run trail).2 = channel.content trail

end Callback

/-- What a callback adds to a channel over some operations, apart from what it goes on to: the
other callback is the same one with nothing behind it. -/
def added (callback bare : Callback) (channel : Channel) : List Operation → Trail → List String
  | [], _ => []
  | operation :: rest, trail =>
    (channel.lines ((operation.perform bare).run trail).2).drop (channel.lines trail).length ++
      added callback bare channel rest ((operation.perform callback).run trail).2

namespace Level

/-- The callback that is nested in another one, on a trail. -/
def nestedIn (level : Level) (outer : Callback) (trail : Trail) : Callback :=
  ((Callback.nested outer.invoke outer.carried level.message level.isOptional).run trail).1

/-- The trail on which it has its buffer. -/
def opened (level : Level) (outer : Callback) (trail : Trail) : Trail :=
  ((Callback.nested outer.invoke outer.carried level.message level.isOptional).run trail).2

/-- What the nested callback itself delivers to a channel over some operations. -/
def delivered (level : Level) (outer : Callback) (channel : Channel) (operations : List Operation)
    (trail : Trail) : List String :=
  added (level.nestedIn outer trail) (level.nestedIn outer.bare trail) channel operations
    (level.opened outer trail)

/-- The trail after the operations. -/
def reused (level : Level) (outer : Callback) (operations : List Operation) (trail : Trail) :
    Trail :=
  ((operations.forM fun operation => operation.perform (level.nestedIn outer trail)).run
    (level.opened outer trail)).2

end Level

theorem Channel.lines_eq (channel : Channel) (trail : Trail) :
    channel.lines trail = (channel.content trail).getD [] := by
  cases channel <;> rfl

section Runs

variable {outer callback bare : Callback} {channel : Channel} {base : Nat} {level : Level}
  {texts : List String} {trail : Trail}

/-- How a nested callback works: it writes to its buffer, and when it is called it writes what it
flushes to the channel and goes on to the outer one. -/
structure Flushes (callback outer : Callback) (channel : Channel) (base : Nat) (level : Level) :
    Prop where
  log : callback.carried.log = some (.buffer base)
  below : channel.Below base
  invoke : ∀ (args : List Value) (texts : List String) (trail : Trail),
    trail.buffers[base]? = some texts →
    (callback.invoke args).run trail = (outer.invoke args).run
      (((flushed level.message level.isOptional texts).forM channel.write).run trail).2

theorem flushes_nestedIn (hlog : outer.carried.log = some channel)
    (hbelow : channel.Below trail.buffers.length) (level : Level) :
    Flushes (level.nestedIn outer trail) outer channel trail.buffers.length level := by
  rw [Level.nestedIn, run_nested hlog]
  refine ⟨rfl, hbelow, ?_⟩
  intro args texts later hb
  have hbuffered : (Resolution.buffered trail.buffers.length).run later = (texts, later) := by
    change (later.buffers[trail.buffers.length]?.getD [], later) = _
    rw [hb]
    rfl
  rw [StateT.run_bind, hbuffered]
  rfl

theorem Channel.Below.succ (h : channel.Below base) : channel.Below (base + 1) := by
  cases channel with
  | caller => trivial
  | buffer index => exact Nat.lt_succ_of_lt h

theorem Channel.Below.ne_buffer (h : channel.Below base) : channel ≠ .buffer base := by
  rintro rfl
  exact absurd h (Nat.lt_irrefl base)

theorem Flushes.write (h : Flushes callback outer channel base level)
    (hb : trail.buffers[base]? = some texts) (text : String) :
    ((callback.write text).run trail).2.buffers[base]? = some (texts ++ [text]) ∧
      channel.lines ((callback.write text).run trail).2 = channel.lines trail := by
  have hsize : base < trail.buffers.length := (List.getElem?_eq_some_iff.mp hb).1
  have hown : (Channel.buffer base).Below (base + 1) := Nat.lt_succ_self base
  have hdelivered := Delivered.write hown hsize text
  have hrun : callback.write text = (Channel.buffer base).write text := by
    rw [Callback.write, h.log]
  rw [hrun]
  constructor
  · change (trail.buffers.modify base (· ++ [text]))[base]? = _
    rw [List.getElem?_modify_eq, hb]
    rfl
  · exact hdelivered.others channel h.below.ne_buffer h.below.succ

/-- A call adds what is flushed to the channel, and the buffer keeps its texts. -/
theorem Flushes.call (h : Flushes callback outer channel base level)
    (hb : trail.buffers[base]? = some texts) (args : List Value) :
    ∃ later : Trail, (callback.invoke args).run trail = (outer.invoke args).run later ∧
      later.buffers[base]? = some texts ∧
      channel.lines later =
        channel.lines trail ++ flushed level.message level.isOptional texts := by
  have hsize : base < trail.buffers.length := (List.getElem?_eq_some_iff.mp hb).1
  have hdelivered := Delivered.forM_write h.below.succ hsize
    (flushed level.message level.isOptional texts)
  refine ⟨_, h.invoke args texts trail hb, ?_, hdelivered.added⟩
  have hown : (Channel.buffer base).Below (base + 1) := Nat.lt_succ_self base
  have hlines := hdelivered.others (.buffer base) h.below.ne_buffer.symm hown
  rw [← hdelivered.size] at hsize
  simp only [Channel.lines, hb, List.getElem?_eq_getElem hsize, Option.getD_some] at hlines
  rw [List.getElem?_eq_getElem hsize, hlines]

/-- Every call delivers all the texts that have been written before it. -/
theorem Flushes.added_eq (h : Flushes callback outer channel base level)
    (hbare : Flushes bare outer.bare channel base level)
    (hspares : outer.Spares (.buffer base)) (operations : List Operation)
    (hb : trail.buffers[base]? = some texts) :
    added callback bare channel operations trail =
      (heard texts operations).flatMap (flushed level.message level.isOptional) := by
  induction operations generalizing texts trail with
  | nil => rfl
  | cons operation rest ih =>
    cases operation with
    | write text =>
      obtain ⟨hbuffer, -⟩ := h.write hb text
      obtain ⟨-, hlines⟩ := hbare.write hb text
      rw [added, heard, ← ih hbuffer]
      change (channel.lines ((bare.write text).run trail).2).drop _ ++ _ = _
      rw [hlines, List.drop_length, List.nil_append]
      rfl
    | call args =>
      obtain ⟨later, hrun, hbuffer, -⟩ := h.call hb args
      obtain ⟨flat, hflat, -, hlines⟩ := hbare.call hb args
      have hkept : ((callback.invoke args).run trail).2.buffers[base]? = some texts := by
        rw [hrun, ← hbuffer]
        exact hspares args later
      rw [added, heard, List.flatMap_cons, ← ih hkept]
      change (channel.lines ((bare.invoke args).run trail).2).drop _ ++ _ = _
      have hend : ((outer.bare.invoke args).run flat).2 = flat := rfl
      rw [hflat, hend, hlines, List.drop_left]
      rfl

theorem Flushes.lines_run (h : Flushes callback outer channel base level)
    (hbuffer : outer.Spares (.buffer base)) (hchannel : outer.Spares channel)
    (operations : List Operation) (hb : trail.buffers[base]? = some texts) :
    channel.lines ((operations.forM fun operation => operation.perform callback).run trail).2 =
      channel.lines trail ++
        (heard texts operations).flatMap (flushed level.message level.isOptional) := by
  induction operations generalizing texts trail with
  | nil => exact (List.append_nil _).symm
  | cons operation rest ih =>
    cases operation with
    | write text =>
      obtain ⟨hwritten, hlines⟩ := h.write hb text
      rw [heard, ← hlines, ← ih hwritten]
      rfl
    | call args =>
      obtain ⟨later, hrun, hkept, hlines⟩ := h.call hb args
      have hend : ((callback.invoke args).run trail).2.buffers[base]? = some texts := by
        rw [hrun, ← hkept]
        exact hbuffer args later
      have hsame : channel.lines ((callback.invoke args).run trail).2 = channel.lines later := by
        rw [hrun, Channel.lines_eq, Channel.lines_eq, hchannel args later]
      rw [heard, List.flatMap_cons, ← List.append_assoc, ← hlines, ← hsame, ← ih hend]
      rfl

end Runs

/-- A callback is nested in another one that leaves its buffer alone, texts are written to it and it
is called, in any order. Each call delivers all the texts that have been written so far, and that is
all that is added to the log around it, if nothing else is written there. So the texts that are
written before a call are delivered exactly once, and in order, if and only if none of them has two
calls behind it. -/
theorem delivers_once_iff {outer : Callback} {channel : Channel} {trail : Trail}
    (hlog : outer.carried.log = some channel) (hbelow : channel.Below trail.buffers.length)
    (hbuffer : outer.Spares (.buffer trail.buffers.length)) (level : Level)
    (operations : List Operation) :
    level.delivered outer channel operations trail =
        (heard [] operations).flatMap (flushed level.message level.isOptional) ∧
      (outer.Spares channel → channel.lines (level.reused outer operations trail) =
        channel.lines trail ++ level.delivered outer channel operations trail) ∧
      (TellsOnce level operations (level.delivered outer channel operations trail) ↔
        CalledOnce operations) := by
  have hflushes := flushes_nestedIn hlog hbelow level
  have hbarelog : outer.bare.carried.log = some channel := hlog
  have hbare := flushes_nestedIn hbarelog hbelow level
  have hopened : level.opened outer trail = { trail with buffers := trail.buffers ++ [[]] } := by
    rw [Level.opened, run_nested hlog]
  have hempty : (level.opened outer trail).buffers[trail.buffers.length]? = some [] := by
    rw [hopened]
    exact List.getElem?_concat_length
  have hdelivered : level.delivered outer channel operations trail = _ :=
    hflushes.added_eq hbare hbuffer operations hempty
  refine ⟨hdelivered, ?_, ?_⟩
  · intro hchannel
    have hstart : channel.lines (level.opened outer trail) = channel.lines trail := by
      rw [hopened]
      cases channel with
      | caller => rfl
      | buffer index =>
        have hindex : index < trail.buffers.length := hbelow
        simp [Channel.lines, List.getElem?_append_left hindex]
    rw [hdelivered, ← hstart]
    exact hflushes.lines_run hbuffer hchannel operations hempty
  · rw [hdelivered]
    exact tellsOnce_iff level operations

namespace Repeated

/-- A recorder with a log. -/
def recorder : Callback :=
  ⟨Resolution.answer, ⟨some .caller, false, false⟩⟩

def start : Trail :=
  ⟨[], [], [], [], [], [], [], none⟩

def level : Level :=
  ⟨none, false⟩

theorem spares_recorder (channel : Channel) : recorder.Spares channel := by
  intro args trail
  cases channel <;> rfl

/-- A call before anything is written does no harm. -/
theorem delivers_once_iff_early :
    recorder.carried.log = some .caller ∧ Channel.caller.Below start.buffers.length ∧
    recorder.Spares (.buffer start.buffers.length) ∧
    CalledOnce [.call [], .write "x", .call []] ∧
    TellsOnce level [.call [], .write "x", .call []]
      (level.delivered recorder .caller [.call [], .write "x", .call []] start) := by
  have hlog : recorder.carried.log = some .caller := rfl
  have hbelow : Channel.caller.Below start.buffers.length := trivial
  have hspares := spares_recorder (.buffer start.buffers.length)
  have honce : CalledOnce [.call [], .write "x", .call []] := by
    apply calledOnce_call.mpr
    apply calledOnce_write.mpr
    refine ⟨by decide, calledOnce_call.mpr ?_⟩
    intro text rest hs
    simp at hs
  exact ⟨hlog, hbelow, hspares, honce,
    (delivers_once_iff hlog hbelow hspares level _).2.2.mpr honce⟩

/-- A text that is written before two calls stands in the log twice. -/
theorem not_tellsOnce_again :
    (level.reused recorder [.write "x", .call [], .call []] start).log = ["x", "x"] ∧
    ¬ TellsOnce level [.write "x", .call [], .call []]
      (level.delivered recorder .caller [.write "x", .call [], .call []] start) := by
  refine ⟨rfl, ?_⟩
  intro h
  exact absurd h.each.length_eq (by decide)

end Repeated

end ImportAlias.Pipeline
