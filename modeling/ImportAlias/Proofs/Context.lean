import ImportAlias.Proofs.Lockstep

/-!
# What a caller brings

A caller comes with a log, a stack and a set of missing paths, or without some of
them. However deep a resolution goes, every callback that is handed on carries
what the caller's does. So the stack tells of every call below the limit, in
order, and no candidate that is looked up in vain is lost. To say which ones are
looked up, a second run is put beside the first, which notes every candidate and
is the same run otherwise.
-/

namespace ImportAlias.Pipeline

namespace Host

/-- The trail of a request at its end. -/
def trailOf (host : Host) (caller : Caller) (stage : String) (request : Request) : Trail :=
  ((host.resolve stage request "" caller.callback).run caller.trail).2

/-- Notes a candidate, in place of a path that is missing. -/
def note (candidate : String) : Resolution Unit :=
  modify fun trail => { trail with missing := trail.missing ++ [candidate] }

/-- Looks a path up as the host does, and notes it whether it is found or not. -/
def noting (host : Host) (candidate : String) (callback : Callback) : Resolution Unit := do
  note candidate
  if candidate ∈ host.files then callback.invoke [.null, .string candidate]
  else
    callback.write s!"no file {candidate}"
    callback.decline

/-- The trail of a request at its end if every candidate is noted that a stage looks up. -/
def notedTrail (host : Host) (caller : Caller) (stage : String) (request : Request) : Trail :=
  ((host.resolveBy host.noting (callLimit + 1) stage request "" caller.callback).run
    { caller.trail with missing := [] }).2

/-- The candidates that some stage looks up, in order. -/
def lookedUp (host : Host) (caller : Caller) (stage : String) (request : Request) : List String :=
  (host.notedTrail caller stage request).missing

end Host

namespace Caller

/-- What the stack of a caller holds after some calls. -/
def stackAfter (caller : Caller) (calls : List Call) : List String :=
  caller.stack.elim [] (· ++ (calls.take Host.callLimit).map Call.entry)

theorem stackAfter_nil (caller : Caller) : caller.stackAfter [] = caller.stack.getD [] := by
  unfold stackAfter
  cases caller.stack with
  | none => rfl
  | some initial => simp

theorem stackAfter_concat (caller : Caller) (calls : List Call) (call : Call) :
    caller.stackAfter (calls ++ [call]) =
      if calls.length < Host.callLimit ∧ caller.stack.isSome then
        caller.stackAfter calls ++ [call.entry]
      else caller.stackAfter calls := by
  unfold stackAfter
  cases caller.stack with
  | none => simp
  | some initial =>
    by_cases h : calls.length < Host.callLimit
    · have hold : calls.take Host.callLimit = calls := List.take_of_length_le (Nat.le_of_lt h)
      have hnew : (calls ++ [call]).take Host.callLimit = calls ++ [call] :=
        List.take_of_length_le (by rw [List.length_append]; exact h)
      simp [hold, hnew, h]
    · simp [List.take_append_of_le_length (Nat.not_lt.mp h), h]

end Caller

/-- How the trail of a run for a caller stands to the trail that notes what is looked up. -/
structure Noted (host : Host) (caller : Caller) (trail noted : Trail) : Prop where
  calls : trail.calls.map Call.seen = noted.calls.map Call.seen
  answers : trail.answers = noted.answers
  fault : trail.fault = noted.fault
  like : ∀ call ∈ trail.calls, call.carried.Like caller.carried
  stack : trail.stack = caller.stackAfter trail.calls
  missing : ∀ path, path ∈ trail.missing ↔ path ∈ caller.missing.getD [] ∨
    caller.missing.isSome = true ∧ path ∈ noted.missing ∧ path ∉ host.files

namespace Noted

variable {host : Host} {caller : Caller} {trail noted : Trail}

theorem start (host : Host) (caller : Caller) :
    Noted host caller caller.trail { caller.trail with missing := [] } where
  calls := rfl
  answers := rfl
  fault := rfl
  like := by simp [Caller.trail]
  stack := caller.stackAfter_nil.symm
  missing := by simp [Caller.trail, List.mem_eraseDups]

theorem called (h : Noted host caller trail noted) {call call' : Call}
    (hs : call.seen = call'.seen) (hc : call.carried.Like caller.carried) :
    Noted host caller (trail.called call) (noted.called call') where
  calls := Trail.seen_called h.calls hs
  answers := h.answers
  fault := h.fault
  like := by
    intro other hm
    obtain hm | hm := List.mem_append.mp hm
    · exact h.like other hm
    · rw [List.mem_singleton.mp hm]
      exact hc
  stack := by
    have hcarried : call.carried.stack = caller.stack.isSome := hc.stack
    change _ = caller.stackAfter (trail.calls ++ [call])
    rw [caller.stackAfter_concat, ← h.stack, ← hcarried]
    rfl
  missing := h.missing

theorem bond (host : Host) (caller : Caller) : Bond caller.carried (Noted host caller) where
  core := ⟨fun h => ⟨h.calls, h.answers, h.fault, h.like, h.stack, h.missing⟩,
    fun h => ⟨h.calls, h.answers, h.fault, h.like, h.stack, h.missing⟩⟩
  answer args h := ⟨h.calls, congrArg (· ++ [args]) h.answers, h.fault, h.like, h.stack, h.missing⟩
  fail fault h := ⟨h.calls, h.answers, congrArg (·.or (some fault)) h.fault, h.like, h.stack,
    h.missing⟩
  called h hs hc _ := h.called hs hc
  level h := .inl (Trail.length_of_seen h.calls)

theorem note {candidate : String} (h : Noted host caller trail noted)
    (hn : candidate ∈ host.files ∨ caller.missing = none) :
    Noted host caller trail ((Host.note candidate).run noted).2 := by
  refine ⟨h.calls, h.answers, h.fault, h.like, h.stack, ?_⟩
  intro path
  rw [h.missing path]
  change _ ↔ _ ∨ _ ∧ path ∈ noted.missing ++ [candidate] ∧ _
  obtain hfile | hnone := hn
  · have hsame : path ∈ noted.missing ++ [candidate] ∧ path ∉ host.files ↔
        path ∈ noted.missing ∧ path ∉ host.files := by
      grind
    rw [hsame]
  · simp [hnone]

theorem miss {candidate : String} (h : Noted host caller trail noted)
    (hfile : candidate ∉ host.files) (hm : caller.missing.isSome = true) :
    Noted host caller ((Resolution.miss candidate).run trail).2
      ((Host.note candidate).run noted).2 := by
  refine ⟨h.calls, h.answers, h.fault, h.like, h.stack, ?_⟩
  intro path
  change path ∈ (if candidate ∈ trail.missing then trail.missing
    else trail.missing ++ [candidate]) ↔ _ ∨ _ ∧ path ∈ noted.missing ++ [candidate] ∧ _
  have hpath := h.missing path
  have hcandidate := h.missing candidate
  grind

end Noted

namespace Host

variable {host : Host} {caller : Caller} {count : Nat}

theorem grows_note (candidate : String) : Grows (note candidate) :=
  fun _ => List.prefix_rfl

theorem grows_noting (host : Host) : LookUpGrows host.noting := by
  intro outer candidate callback callback' hc
  apply (grows_note candidate).bind
  intro _
  split
  · exact hc.invoke _
  · exact (Grows.of_unseen (callback.unseen_write _)).bind fun _ => hc.invoke _

theorem tied_note {candidate : String} (hn : candidate ∈ host.files ∨ caller.missing = none) :
    Tied (Noted host caller) count (pure ()) (note candidate) :=
  ⟨.of_unseen (unseen_pure ()), grows_note candidate, fun _ _ _ h => h.note hn⟩

theorem tied_miss {candidate : String} (hfile : candidate ∉ host.files)
    (hm : caller.missing.isSome = true) :
    Tied (Noted host caller) count (Resolution.miss candidate) (note candidate) :=
  ⟨.miss candidate, grows_note candidate, fun _ _ _ h => h.miss hfile hm⟩

/-- A lookup that misses a candidate and one that notes it call back alike. -/
theorem tied_lookUp (host : Host) (caller : Caller) (count : Nat) :
    LookUpsRelated caller.carried (Tied (Noted host caller) count) host.lookUp host.noting := by
  intro candidate callback callback' hc
  have hs := Tied.compatible (Noted.bond host caller) count
  have hdecline : Tied (Noted host caller) count callback.decline
      (callback'.write s!"no file {candidate}" >>= fun _ => callback'.decline) :=
    hs.right (callback'.unseen_write _) fun _ => hc.invoke []
  unfold lookUp noting
  by_cases hfile : candidate ∈ host.files
  · simp only [if_pos hfile]
    exact hs.seq (tied_note (.inl hfile)) (hc.invoke _)
  · simp only [if_neg hfile]
    apply hs.left (callback.unseen_write _)
    intro _
    have hmissing : callback.carried.missing = caller.missing.isSome := hc.like.missing
    cases hm : caller.missing.isSome with
    | true =>
      rw [hmissing, hm]
      exact hs.seq (tied_miss hfile hm) hdecline
    | false =>
      rw [hmissing, hm]
      exact hs.seq (tied_note (.inr (by simpa using hm))) hdecline

/-- Noting what is looked up leaves a run as it is. -/
theorem noted_trailOf (host : Host) (caller : Caller) (stage : String) (request : Request) :
    Noted host caller (host.trailOf caller stage request)
      (host.notedTrail caller stage request) := by
  have hsame : ∀ stage request,
      Interposed request (host.handlersOf stage) (host.handlersOf stage) ∨
        Settles (Noted host caller) stage request := fun _ _ => .inl (.refl _ _)
  rw [trailOf, resolve, ← resolveBy_lookUp]
  exact keeps_resolveBy (Noted.bond host caller) (tied_lookUp host caller) host.grows_lookUp
    host.grows_noting hsame stage "" request (.start host caller)

end Host

/-- Every callback that is handed on in a run carries what the caller's own one does: a log, the
stack and the missing paths of the caller, each if and only if the caller has it. So at the end the
missing paths are those of the start and exactly the candidates that some stage looked up and that
are no files, and the stack has gained the entries of all calls below the limit, in order. The
candidates are those of a run with the same calls and answers. -/
theorem context_kept (host : Host) (caller : Caller) (stage : String) (request : Request) :
    (∀ call ∈ (host.trailOf caller stage request).calls, call.carried.Like caller.carried) ∧
    (∀ path, path ∈ (host.trailOf caller stage request).missing ↔
      path ∈ caller.missing.getD [] ∨ caller.missing.isSome = true ∧
        path ∈ host.lookedUp caller stage request ∧ path ∉ host.files) ∧
    (host.trailOf caller stage request).stack = caller.stack.elim [] (· ++
      ((host.trailOf caller stage request).calls.take Host.callLimit).map Call.entry) ∧
    (host.trailOf caller stage request).calls.map Call.seen =
      (host.notedTrail caller stage request).calls.map Call.seen ∧
    (host.trailOf caller stage request).answers = (host.notedTrail caller stage request).answers := by
  have h := host.noted_trailOf caller stage request
  exact ⟨h.like, h.missing, h.stack, h.calls, h.answers⟩

/-- A bare specifier comes to a directory of modules, four calls deep, and is not found there. -/
example :
    ((Host.empty.applyModuleRoot ⟨moduleStage, "/m", targetStage⟩).trailOf
      ⟨true, some [], some ["/a"]⟩ sourceStage ⟨"/p", some "x", none, "", none, []⟩).missing =
        ["/a", "/m/x"] := by
  rfl

end ImportAlias.Pipeline
