import ImportAlias.Pipeline.Callback

/-!
# Logs inside logs

Callbacks may be nested to any depth, each with a buffer for its own lines. When
the innermost one is called, the buffers are flushed from the inside out, each
into the log around it and under the message of its level, before the next
callback is called. So once the recorder at the outside is called, its log holds
all lines of all levels, those of a level behind the ones of the level around it
and indented once for every message that they stand under.
-/

namespace ImportAlias.Pipeline

/-- What a nested callback flushes its lines under. -/
structure Level where
  message : Option String
  isOptional : Bool

/-- Makes a chain of callbacks, each of which is nested in the one before and goes on to it. Gives
back all of them from the outside in, and the innermost one. -/
def chain (outer : Callback) : List Level → Resolution (List Callback × Callback)
  | [] => return ([outer], outer)
  | level :: levels => do
    let inner ← Callback.nested outer.invoke outer.carried level.message level.isOptional
    let (callbacks, innermost) ← chain inner levels
    return (outer :: callbacks, innermost)

/-- Writes a text to the log of one of some callbacks. -/
def writeAt (callbacks : List Callback) (entry : Nat × String) : Resolution Unit :=
  match callbacks[entry.1]? with
  | some callback => callback.write entry.2
  | none => return

/-- Makes a chain of callbacks around a recorder, writes to their logs, each text to the callback of
its number, and calls the innermost one. -/
def session (recorder : Callback) (levels : List Level) (writes : List (Nat × String))
    (args : List Value) : Resolution Unit := do
  let (callbacks, innermost) ← chain recorder levels
  writes.forM (writeAt callbacks)
  innermost.invoke args

/-- The texts that are written to one of the callbacks, in order. -/
def textsAt (writes : List (Nat × String)) (index : Nat) : List String :=
  (writes.filter (·.1 = index)).map (·.2)

namespace Level

/-- The line above what a level flushes, unless it is left out. -/
def heading (level : Level) (lines : List String) : List String :=
  match level.message.filter (· ≠ "") with
  | none => []
  | some message => if level.isOptional && lines.isEmpty then [] else [message]

/-- A line as it stands under the message of a level. -/
def indent (level : Level) (line : String) : String :=
  if (level.message.filter (· ≠ "")).isSome then "  " ++ line else line

theorem flushed_eq (level : Level) (lines : List String) :
    flushed level.message level.isOptional lines =
      level.heading lines ++ lines.map level.indent := by
  unfold flushed heading
  cases hm : level.message.filter (· ≠ "") with
  | none =>
    have hindent : level.indent = id := by
      funext line
      rw [indent, hm]
      rfl
    rw [hindent, List.map_id]
    rfl
  | some message =>
    have hindent : level.indent = ("  " ++ ·) := by
      funext line
      rw [indent, hm]
      rfl
    rw [hindent]
    cases level.isOptional with
    | false => rfl
    | true => cases lines <;> rfl

end Level

section Lines

variable (texts : Nat → List String)

/-- What the callbacks from a number on flush into the log around them: the texts of the first one
and what the deeper ones flush into it, under its message. -/
def gathered (index : Nat) : List Level → List String
  | [] => []
  | level :: levels =>
    flushed level.message level.isOptional (texts index ++ gathered (index + 1) levels)

/-- The messages among these lines. -/
def headings (index : Nat) : List Level → List String
  | [] => []
  | level :: levels =>
    level.heading (texts index ++ gathered texts (index + 1) levels) ++
      (headings (index + 1) levels).map level.indent

/-- The texts among these lines, indented once for every message around them. -/
def indented (index : Nat) : List Level → List String
  | [] => []
  | level :: levels => (texts index ++ indented (index + 1) levels).map level.indent

/-- Every text is flushed exactly once, and apart from texts only messages are. -/
theorem perm_gathered (index : Nat) (levels : List Level) :
    (gathered texts index levels).Perm
      (headings texts index levels ++ indented texts index levels) := by
  induction levels generalizing index with
  | nil => rfl
  | cons level levels ih =>
    rw [gathered, headings, indented, Level.flushed_eq, List.append_assoc]
    apply List.Perm.append_left
    have hrest : (texts index ++ gathered texts (index + 1) levels).Perm
        (headings texts (index + 1) levels ++
          (texts index ++ indented texts (index + 1) levels)) := by
      rw [← List.append_assoc]
      apply ((ih (index + 1)).append_left (texts index)).trans
      rw [← List.append_assoc]
      exact List.perm_append_comm.append_right _
    rw [← List.map_append]
    exact hrest.map level.indent

theorem sublist_gathered (index : Nat) (levels : List Level) :
    (indented texts index levels).Sublist (gathered texts index levels) := by
  induction levels generalizing index with
  | nil => exact List.Sublist.refl []
  | cons level levels ih =>
    rw [gathered, indented, Level.flushed_eq]
    apply List.Sublist.trans _ (List.sublist_append_right _ _)
    apply List.Sublist.map
    exact List.Sublist.append_left (ih (index + 1)) (texts index)

variable {texts}

theorem gathered_congr {texts' : Nat → List String} {index index' : Nat} {levels : List Level}
    (h : ∀ depth < levels.length, texts (index + depth) = texts' (index' + depth)) :
    gathered texts index levels = gathered texts' index' levels := by
  induction levels generalizing index index' with
  | nil => rfl
  | cons level levels ih =>
    have hfirst : texts index = texts' index' := h 0 (Nat.zero_lt_succ _)
    have hrest : gathered texts (index + 1) levels = gathered texts' (index' + 1) levels := by
      apply ih
      intro depth hdepth
      rw [Nat.add_assoc index, Nat.add_assoc index', Nat.add_comm 1]
      exact h (depth + 1) (Nat.succ_lt_succ hdepth)
    rw [gathered, gathered, hfirst, hrest]

end Lines

/-- An optional message stands above lines only, and what it stands above is indented again by the
message around it. -/
example : gathered (textsAt [(3, "c"), (1, "a")]) 1
    [⟨some "outer", false⟩, ⟨none, false⟩, ⟨some "inner", true⟩] =
      ["outer", "  a", "  inner", "    c"] := by decide

namespace Channel

/-- The lines that a channel holds. -/
def lines (channel : Channel) (trail : Trail) : List String :=
  match channel with
  | caller => trail.log
  | buffer index => trail.buffers[index]?.getD []

/-- Whether a channel is the log of the caller or one of the first buffers. -/
def Below (base : Nat) : Channel → Prop
  | caller => True
  | buffer index => index < base

end Channel

/-- A trail without the logs. -/
def Trail.unlogged (trail : Trail) : Trail :=
  { trail with log := [], buffers := [] }

/-- Lines have been added to a channel. All other channels below `base` hold what they held, and
nothing but logs has changed. -/
structure Delivered (channel : Channel) (base : Nat) (lines : List String) (trail later : Trail) :
    Prop where
  added : channel.lines later = channel.lines trail ++ lines
  others : ∀ other ≠ channel, other.Below base → other.lines later = other.lines trail
  size : later.buffers.length = trail.buffers.length
  rest : later.unlogged = trail.unlogged

namespace Delivered

variable {channel : Channel} {base : Nat} {first second : List String} {trail middle later : Trail}

theorem refl (channel : Channel) (base : Nat) (trail : Trail) :
    Delivered channel base [] trail trail :=
  ⟨(List.append_nil _).symm, fun _ _ _ => rfl, rfl, rfl⟩

theorem trans (h : Delivered channel base first trail middle)
    (h' : Delivered channel base second middle later) :
    Delivered channel base (first ++ second) trail later := by
  constructor
  · rw [h'.added, h.added, List.append_assoc]
  · intro other hne hbelow
    rw [h'.others other hne hbelow, h.others other hne hbelow]
  · rw [h'.size, h.size]
  · rw [h'.rest, h.rest]

theorem write (hc : channel.Below base) (hb : base ≤ trail.buffers.length) (line : String) :
    Delivered channel base [line] trail ((channel.write line).run trail).2 := by
  cases channel with
  | caller =>
    refine ⟨rfl, fun other hne _ => ?_, rfl, rfl⟩
    cases other with
    | caller => exact absurd rfl hne
    | buffer index => rfl
  | buffer index =>
    have hindex : index < trail.buffers.length := Nat.lt_of_lt_of_le hc hb
    refine ⟨?_, fun other hne _ => ?_, List.length_modify .., rfl⟩
    · change ((trail.buffers.modify index (· ++ [line]))[index]?).getD [] = _
      simp [Channel.lines, hindex]
    · cases other with
      | caller => rfl
      | buffer other =>
        have hother : index ≠ other := fun h => hne (h ▸ rfl)
        change ((trail.buffers.modify index (· ++ [line]))[other]?).getD [] = _
        rw [List.getElem?_modify_ne _ _ hother]
        rfl

theorem forM_write (hc : channel.Below base) (hb : base ≤ trail.buffers.length)
    (lines : List String) :
    Delivered channel base lines trail ((lines.forM channel.write).run trail).2 := by
  induction lines generalizing trail with
  | nil => exact refl channel base trail
  | cons line lines ih =>
    have hline := write hc hb line
    apply hline.trans
    apply ih
    rw [hline.size]
    exact hb

theorem outward (h : Delivered (.buffer base) (base + 1) first trail middle)
    (h' : Delivered channel base second middle later) (hc : channel.Below base) :
    Delivered channel base second trail later := by
  have hmiddle : ∀ other : Channel, other.Below base → other.lines middle = other.lines trail := by
    intro other hbelow
    apply h.others
    · rintro rfl
      exact absurd hbelow (Nat.lt_irrefl base)
    · cases other with
      | caller => trivial
      | buffer index => exact Nat.lt_succ_of_lt hbelow
  constructor
  · rw [h'.added, hmiddle channel hc]
  · intro other hne hbelow
    rw [h'.others other hne hbelow, hmiddle other hbelow]
  · rw [h'.size, h.size]
  · rw [h'.rest, h.rest]

end Delivered

/-- The channel of each callback of a chain, when the first one writes to `channel` and the next
buffer has the number `base`. -/
def channelAt (channel : Channel) (base : Nat) : Nat → Channel
  | 0 => channel
  | depth + 1 => .buffer (base + depth)

/-- What is known of a chain that has been made. -/
structure Linked (outer : Callback) (channel : Channel) (base : Nat) (levels : List Level)
    (callbacks : List Callback) (innermost : Callback) : Prop where
  length : callbacks.length = levels.length + 1
  logs : ∀ (index : Nat) (h : index < callbacks.length),
    callbacks[index].carried.log = some (channelAt channel base index)
  flushes : ∀ (args : List Value) (trail : Trail), base + levels.length ≤ trail.buffers.length →
    ∃ later : Trail, (innermost.invoke args).run trail = (outer.invoke args).run later ∧
      Delivered channel base (gathered (fun index => (Channel.buffer index).lines trail) base levels)
        trail later

theorem run_nested {outer : Callback} {channel : Channel} (h : outer.carried.log = some channel)
    (level : Level) (trail : Trail) :
    (Callback.nested outer.invoke outer.carried level.message level.isOptional).run trail =
      (⟨fun args => do
          (flushed level.message level.isOptional
            (← Resolution.buffered trail.buffers.length)).forM channel.write
          outer.invoke args,
        { outer.carried with log := some (.buffer trail.buffers.length) }⟩,
        { trail with buffers := trail.buffers ++ [[]] }) := by
  unfold Callback.nested
  rw [h]
  rfl

/-- A chain flushes its buffers from the inside out, and then calls the callback that it is made
around. -/
theorem exists_linked {outer : Callback} {channel : Channel} {trail : Trail}
    (h : outer.carried.log = some channel) (hc : channel.Below trail.buffers.length)
    (levels : List Level) :
    ∃ (callbacks : List Callback) (innermost : Callback),
      (chain outer levels).run trail = ((callbacks, innermost),
        { trail with buffers := trail.buffers ++ List.replicate levels.length [] }) ∧
      Linked outer channel trail.buffers.length levels callbacks innermost := by
  -- from the outermost level to the innermost one, whose buffer has the highest number
  induction levels generalizing outer channel trail with
  | nil =>
    refine ⟨[outer], outer, ?_, rfl, ?_, ?_⟩
    · rw [List.length_nil, List.replicate_zero, List.append_nil]
      rfl
    · intro index hindex
      obtain rfl := Nat.lt_one_iff.mp hindex
      exact h
    · intro args now _
      exact ⟨now, rfl, .refl channel _ now⟩
  | cons level levels ih =>
    let base := trail.buffers.length
    let deeper : Trail := { trail with buffers := trail.buffers ++ [[]] }
    let inner : Callback := ⟨fun args => do
        (flushed level.message level.isOptional (← Resolution.buffered base)).forM channel.write
        outer.invoke args, { outer.carried with log := some (.buffer base) }⟩
    have hlength : deeper.buffers.length = base + 1 := List.length_append
    have hbelow : (Channel.buffer base).Below deeper.buffers.length := by
      rw [hlength]
      exact Nat.lt_succ_self base
    have hlog : inner.carried.log = some (.buffer base) := rfl
    obtain ⟨callbacks, innermost, hrun, hlinked⟩ := ih hlog hbelow
    rw [hlength] at hlinked
    refine ⟨outer :: callbacks, innermost, ?_, ?_, ?_, ?_⟩
    · have hnested := run_nested h level trail
      have hbuffers : deeper.buffers ++ List.replicate levels.length [] =
          trail.buffers ++ List.replicate (level :: levels).length [] := by
        rw [List.length_cons, List.replicate_succ, List.append_assoc]
        rfl
      have hstep : (chain outer (level :: levels)).run trail =
          (chain inner levels >>= fun made => pure (outer :: made.1, made.2)).run deeper := by
        rw [chain, StateT.run_bind, hnested]
        rfl
      rw [hstep, StateT.run_bind, hrun, ← hbuffers]
      rfl
    · rw [List.length_cons, hlinked.length, List.length_cons]
    · intro index hindex
      cases index with
      | zero => exact h
      | succ index =>
        have hnext := hlinked.logs index (Nat.lt_of_succ_lt_succ hindex)
        cases index with
        | zero => exact hnext
        | succ index =>
          rw [channelAt, Nat.add_right_comm] at hnext
          exact hnext
    · intro args now hsize
      rw [List.length_cons, ← Nat.add_assoc, Nat.add_right_comm] at hsize
      obtain ⟨middle, hinner, hdelivered⟩ := hlinked.flushes args now hsize
      let lines := (Channel.buffer base).lines middle
      have hlines : lines = (Channel.buffer base).lines now ++
          gathered (fun index => (Channel.buffer index).lines now) (base + 1) levels :=
        hdelivered.added
      let final :=
        (((flushed level.message level.isOptional lines).forM channel.write).run middle).2
      have hmiddle : base ≤ middle.buffers.length := by
        rw [hdelivered.size]
        omega
      have hfinal : Delivered channel base (flushed level.message level.isOptional lines) middle
          final := .forM_write hc hmiddle _
      refine ⟨final, hinner.trans rfl, ?_⟩
      rw [gathered, ← hlines]
      exact hdelivered.outward hfinal hc

theorem below_channelAt {base depth index : Nat} (h : index ≤ depth) :
    (channelAt .caller base index).Below (base + depth) := by
  cases index with
  | zero => trivial
  | succ index => exact Nat.add_lt_add_left h base

theorem channelAt_injective {base index other : Nat}
    (h : channelAt .caller base index = channelAt .caller base other) : index = other := by
  cases index with
  | zero =>
    cases other with
    | zero => rfl
    | succ other => simp [channelAt] at h
  | succ index =>
    cases other with
    | zero => simp [channelAt] at h
    | succ other =>
      simp only [channelAt, Channel.buffer.injEq] at h
      omega

/-- Texts have been written to the callbacks of a chain, and nothing but logs has changed. -/
structure Written (base depth : Nat) (writes : List (Nat × String)) (trail later : Trail) :
    Prop where
  added : ∀ index ≤ depth, (channelAt .caller base index).lines later =
    (channelAt .caller base index).lines trail ++ textsAt writes index
  size : later.buffers.length = trail.buffers.length
  rest : later.unlogged = trail.unlogged

section Writes

variable {base depth : Nat} {callbacks : List Callback} {trail : Trail}

theorem textsAt_append (first second : List (Nat × String)) (index : Nat) :
    textsAt (first ++ second) index = textsAt first index ++ textsAt second index := by
  rw [textsAt, List.filter_append, List.map_append]
  rfl

/-- A text goes to the channel of its number and nowhere else. -/
theorem written_writeAt (hl : callbacks.length = depth + 1)
    (hlogs : ∀ (index : Nat) (h : index < callbacks.length),
      callbacks[index].carried.log = some (channelAt .caller base index))
    (hsize : base + depth ≤ trail.buffers.length) (entry : Nat × String) :
    Written base depth [entry] trail ((writeAt callbacks entry).run trail).2 := by
  obtain ⟨number, text⟩ := entry
  by_cases hnumber : number < callbacks.length
  · have hrun : writeAt callbacks (number, text) =
        (channelAt .caller base number).write text := by
      have hget : callbacks[number]? = some callbacks[number] := List.getElem?_eq_getElem hnumber
      simp only [writeAt, hget, Callback.write, hlogs number hnumber]
    have hbelow : (channelAt .caller base number).Below (base + depth) := below_channelAt (by omega)
    have hdelivered := Delivered.write hbelow hsize text
    rw [hrun]
    refine ⟨fun index hindex => ?_, hdelivered.size, hdelivered.rest⟩
    by_cases hsame : number = index
    · subst hsame
      rw [hdelivered.added]
      simp [textsAt]
    · have hne : channelAt .caller base index ≠ channelAt .caller base number :=
        fun h => hsame (channelAt_injective h).symm
      rw [hdelivered.others _ hne (below_channelAt hindex)]
      simp [textsAt, hsame]
  · have hget : callbacks[number]? = none := List.getElem?_eq_none (Nat.le_of_not_lt hnumber)
    have hrun : writeAt callbacks (number, text) = pure () := by
      simp only [writeAt, hget]
    rw [hrun]
    refine ⟨fun index hindex => ?_, rfl, rfl⟩
    have hother : number ≠ index := by omega
    have hnone : textsAt [(number, text)] index = [] := by simp [textsAt, hother]
    rw [hnone, List.append_nil]
    rfl

theorem written_forM (hl : callbacks.length = depth + 1)
    (hlogs : ∀ (index : Nat) (h : index < callbacks.length),
      callbacks[index].carried.log = some (channelAt .caller base index))
    (hsize : base + depth ≤ trail.buffers.length) (writes : List (Nat × String)) :
    Written base depth writes trail ((writes.forM (writeAt callbacks)).run trail).2 := by
  induction writes generalizing trail with
  | nil => exact ⟨fun index _ => (List.append_nil _).symm, rfl, rfl⟩
  | cons entry writes ih =>
    have hfirst := written_writeAt hl hlogs hsize entry
    let middle := ((writeAt callbacks entry).run trail).2
    have hrest : Written base depth writes middle
        ((writes.forM (writeAt callbacks)).run middle).2 := by
      apply ih
      rw [hfirst.size]
      exact hsize
    change Written base depth (entry :: writes) trail
      ((writes.forM (writeAt callbacks)).run middle).2
    constructor
    · intro index hindex
      rw [hrest.added index hindex, hfirst.added index hindex, List.append_assoc,
        ← textsAt_append]
      rfl
    · rw [hrest.size, hfirst.size]
    · exact hrest.rest.trans hfirst.rest

end Writes

/-- A chain of any depth is made around a recorder with a log, texts are written to its callbacks in
any order, and the innermost one is called. Then the recorder is called, just once, with the same
arguments, and by then its log has got the texts written to it, and behind these what the levels
flush: each text once, indented once for every message around it and in order, and besides texts
only the messages themselves. -/
theorem session_flushes_all (invoke : List Value → Resolution Unit) (stack missing : Bool)
    (levels : List Level) (writes : List (Nat × String)) (args : List Value) (trail : Trail) :
    ∃ later : Trail,
      (session ⟨invoke, ⟨some .caller, stack, missing⟩⟩ levels writes args).run trail =
        (invoke args).run later ∧
      later.log = trail.log ++ textsAt writes 0 ++ gathered (textsAt writes) 1 levels ∧
      (gathered (textsAt writes) 1 levels).Perm
        (headings (textsAt writes) 1 levels ++ indented (textsAt writes) 1 levels) ∧
      (indented (textsAt writes) 1 levels).Sublist (gathered (textsAt writes) 1 levels) ∧
      later.unlogged = trail.unlogged := by
  let base := trail.buffers.length
  let recorder : Callback := ⟨invoke, ⟨some .caller, stack, missing⟩⟩
  let made : Trail :=
    { trail with buffers := trail.buffers ++ List.replicate levels.length [] }
  have hlog : recorder.carried.log = some .caller := rfl
  have hbelow : Channel.caller.Below trail.buffers.length := trivial
  obtain ⟨callbacks, innermost, hchain, hlinked⟩ := exists_linked hlog hbelow levels
  have hsize : base + levels.length = made.buffers.length := by
    rw [List.length_append, List.length_replicate]
  let wrote := ((writes.forM (writeAt callbacks)).run made).2
  have hwritten : Written base levels.length writes made wrote :=
    written_forM hlinked.length hlinked.logs (Nat.le_of_eq hsize) writes
  have hwrote : base + levels.length ≤ wrote.buffers.length := by
    rw [hwritten.size]
    exact Nat.le_of_eq hsize
  obtain ⟨later, hflush, hdelivered⟩ := hlinked.flushes args wrote hwrote
  have hrun : (session recorder levels writes args).run trail =
      (innermost.invoke args).run wrote := by
    rw [session, StateT.run_bind, hchain]
    rfl
  -- the buffers start empty, so they hold what has been written to them
  have hbuffers : gathered (fun index => (Channel.buffer index).lines wrote) base levels =
      gathered (textsAt writes) 1 levels := by
    apply gathered_congr
    intro depth hdepth
    have hempty : (Channel.buffer (base + depth)).lines made = [] := by
      simp [Channel.lines, made, base, hdepth]
    have hadded := hwritten.added (depth + 1) hdepth
    rw [channelAt, hempty, List.nil_append] at hadded
    rw [Nat.add_comm 1]
    exact hadded
  have hadded : later.log = wrote.log ++
      gathered (fun index => (Channel.buffer index).lines wrote) base levels := hdelivered.added
  have hown : wrote.log = trail.log ++ textsAt writes 0 := hwritten.added 0 (Nat.zero_le _)
  refine ⟨later, hrun.trans hflush, ?_, perm_gathered _ _ _, sublist_gathered _ _ _, ?_⟩
  · rw [hadded, hbuffers, hown]
  · exact hdelivered.rest.trans hwritten.rest

end ImportAlias.Pipeline
