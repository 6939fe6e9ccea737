import ImportAlias.Proofs.Claiming

/-!
# Runs that keep abreast

Two runs are compared whose callbacks differ and whose stages may have different
handlers. What is traced and logged on the way is not looked at. A relation
between resolutions is compatible when it survives such steps on either side and
goes through a sequence, and then every handler keeps it: asked on both sides
with callbacks that are related, it gives resolutions that are related again. So
do all handlers of a stage, also when others that decline stand between those of
one side, and whatever stands behind a mapping that decides.
-/

namespace ImportAlias.Pipeline

variable {α β : Type}

/-- A trail without what was traced and logged. -/
def Trail.core (trail : Trail) : Trail :=
  { trail with actions := [], buffers := [], log := [] }

/-- Only traces and logs change. -/
def Unseen (step : Resolution α) : Prop :=
  ∀ trail : Trail, (step.run trail).2.core = trail.core

theorem unseen_pure (a : α) : Unseen (pure a : Resolution α) :=
  fun _ => rfl

theorem Unseen.bind {step : Resolution α} {next : α → Resolution β} (h : Unseen step)
    (hn : ∀ a, Unseen (next a)) : Unseen (step >>= next) := by
  intro trail
  exact (hn (step.run trail).1 (step.run trail).2).trans (h trail)

theorem unseen_forM {lines : List String} {step : String → Resolution Unit}
    (h : ∀ line, Unseen (step line)) : Unseen (lines.forM step) := by
  induction lines with
  | nil => exact unseen_pure ()
  | cons line lines ih => exact (h line).bind fun _ => ih

theorem unseen_write (channel : Channel) (line : String) : Unseen (channel.write line) := by
  intro trail
  cases channel <;> rfl

theorem Callback.unseen_write (callback : Callback) (line : String) :
    Unseen (callback.write line) := by
  unfold Callback.write
  split
  · exact Pipeline.unseen_write _ line
  · exact unseen_pure ()

theorem unseen_trace (action : Action) : Unseen (Resolution.trace action) :=
  fun _ => rfl

theorem unseen_newBuffer : Unseen Resolution.newBuffer :=
  fun _ => rfl

theorem unseen_buffered (index : Nat) : Unseen (Resolution.buffered index) :=
  fun _ => rfl

/-- Both have a log or neither has, and so for the stack and the missing paths. -/
structure Carried.Like (carried outer : Carried) : Prop where
  log : carried.log.isSome = outer.log.isSome
  stack : carried.stack = outer.stack
  missing : carried.missing = outer.missing

namespace Carried.Like

variable {carried outer other : Carried}

theorem refl (carried : Carried) : carried.Like carried :=
  ⟨rfl, rfl, rfl⟩

theorem trans (h : carried.Like outer) (h' : outer.Like other) : carried.Like other :=
  ⟨h.log.trans h'.log, h.stack.trans h'.stack, h.missing.trans h'.missing⟩

end Carried.Like

/-- Calling `callback` is going on with its arguments, once something was logged. -/
def Callback.Wraps (callback : Callback) (goOn : List Value → Resolution Unit) : Prop :=
  ∀ args, ∃ flush : Resolution Unit, Unseen flush ∧
    callback.invoke args = flush >>= fun _ => goOn args

/-- A nested callback is made unseen. It carries what the outer one does and wraps what it goes on
with. -/
theorem of_nested {T : Resolution Unit → Prop} {goOn : List Value → Resolution Unit}
    {carried : Carried} {message : Option String} {isOptional : Bool}
    {next : Callback → Resolution Unit}
    (hT : ∀ {γ : Type} {step : Resolution γ} {next : γ → Resolution Unit}, Unseen step →
      (∀ a, T (next a)) → T (step >>= next))
    (hn : ∀ nested : Callback, nested.carried.Like carried → nested.Wraps goOn →
      T (next nested)) :
    T (Callback.nested goOn carried message isOptional >>= next) := by
  unfold Callback.nested
  cases hlog : carried.log with
  | none => exact hn ⟨goOn, carried⟩ (.refl carried) fun args => ⟨pure (), unseen_pure (), rfl⟩
  | some channel =>
    simp only [bind_assoc, pure_bind]
    apply hT unseen_newBuffer
    intro index
    apply hn
    · exact ⟨by rw [hlog]; rfl, rfl, rfl⟩
    · intro args
      let flush : Resolution Unit := Resolution.buffered index >>= fun lines =>
        (flushed message isOptional lines).forM channel.write
      have hflush : Unseen flush := (unseen_buffered index).bind fun lines =>
        unseen_forM fun line => unseen_write channel line
      exact ⟨flush, hflush, (bind_assoc _ _ _).symm⟩

/-- A relation between resolutions that goes through sequences and that unseen steps do not
touch. -/
structure Compatible (S : Resolution Unit → Resolution Unit → Prop) : Prop where
  done : S (pure ()) (pure ())
  fail : ∀ fault, S (Resolution.fail fault) (Resolution.fail fault)
  seq : ∀ {step step' next next' : Resolution Unit}, S step step' → S next next' →
    S (step >>= fun _ => next) (step' >>= fun _ => next')
  left : ∀ {γ : Type} {step : Resolution γ} {next : γ → Resolution Unit} {step' : Resolution Unit},
    Unseen step → (∀ a, S (next a) step') → S (step >>= next) step'
  right : ∀ {γ : Type} {step : Resolution Unit} {step' : Resolution γ}
    {next' : γ → Resolution Unit}, Unseen step' → (∀ a, S step (next' a)) → S step (step' >>= next')

/-- Callbacks that carry what the outermost one does, and answers to which are related. -/
structure Callback.Related (outer : Carried) (S : Resolution Unit → Resolution Unit → Prop)
    (callback callback' : Callback) : Prop where
  like : callback.carried.Like outer
  like' : callback'.carried.Like outer
  invoke : ∀ args, S (callback.invoke args) (callback'.invoke args)

/-- Resolvers that are related on related callbacks. -/
def Resolver.Related (outer : Carried) (S : Resolution Unit → Resolution Unit → Prop)
    (resolve resolve' : Resolver) : Prop :=
  ∀ (stage : String) (request : Request) (message : String) (callback callback' : Callback),
    callback.Related outer S callback' →
      S (resolve stage request message callback) (resolve' stage request message callback')

/-- Ways of looking a path up that are related on related callbacks. -/
def LookUpsRelated (outer : Carried) (S : Resolution Unit → Resolution Unit → Prop)
    (look look' : String → Callback → Resolution Unit) : Prop :=
  ∀ (candidate : String) (callback callback' : Callback), callback.Related outer S callback' →
    S (look candidate callback) (look' candidate callback')

namespace Compatible

variable {S : Resolution Unit → Resolution Unit → Prop} {outer : Carried}
  {resolve resolve' : Resolver} {callback callback' : Callback} {request : Request}

theorem left_when (h : Compatible S) {step next step' : Resolution Unit} (hs : Unseen step)
    (flag : Bool) (hn : S next step') :
    S (if flag then step >>= fun _ => next else next) step' := by
  cases flag with
  | false => exact hn
  | true => exact h.left hs fun _ => hn

theorem right_when (h : Compatible S) {step step' next' : Resolution Unit} (hs : Unseen step')
    (flag : Bool) (hn : S step next') :
    S step (if flag then step' >>= fun _ => next' else next') := by
  cases flag with
  | false => exact hn
  | true => exact h.right hs fun _ => hn

theorem left_wraps (h : Compatible S) {goOn : List Value → Resolution Unit}
    {args : List Value} {step' : Resolution Unit} (hw : callback.Wraps goOn)
    (hg : S (goOn args) step') : S (callback.invoke args) step' := by
  obtain ⟨flush, hflush, he⟩ := hw args
  rw [he]
  exact h.left hflush fun _ => hg

theorem right_wraps (h : Compatible S) {goOn : List Value → Resolution Unit}
    {args : List Value} {step : Resolution Unit} (hw : callback.Wraps goOn)
    (hg : S step (goOn args)) : S step (callback.invoke args) := by
  obtain ⟨flush, hflush, he⟩ := hw args
  rw [he]
  exact h.right hflush fun _ => hg

theorem nested (h : Compatible S) {goOn goOn' : List Value → Resolution Unit}
    {carried carried' : Carried} {message message' : Option String}
    {isOptional isOptional' : Bool} {next next' : Callback → Resolution Unit}
    (hc : carried.Like outer) (hc' : carried'.Like outer)
    (hg : ∀ args, S (goOn args) (goOn' args))
    (hn : ∀ nested nested' : Callback, nested.Related outer S nested' →
      S (next nested) (next' nested')) :
    S (Callback.nested goOn carried message isOptional >>= next)
      (Callback.nested goOn' carried' message' isOptional' >>= next') := by
  apply of_nested (T := fun step => S step _) h.left
  intro nested hl hw
  apply of_nested h.right
  intro nested' hl' hw'
  apply hn
  exact ⟨hl.trans hc, hl'.trans hc', fun args => h.left_wraps hw (h.right_wraps hw' (hg args))⟩

theorem delegate (h : Compatible S) (hr : Resolver.Related outer S resolve resolve')
    (target : String) (traced : Bool) (request : Request) (redirect : Redirect)
    (hc : callback.Related outer S callback') :
    S (delegate resolve target traced request redirect callback)
      (delegate resolve' target traced request redirect callback') := by
  unfold Pipeline.delegate
  apply h.nested hc.like hc.like'
  · intro args
    cases args with
    | nil =>
      exact h.left_when (unseen_trace _) traced (h.right_when (unseen_trace _) traced (hc.invoke _))
    | cons first rest => exact hc.invoke _
  · intro nested nested' hn
    exact hr _ _ _ _ _ hn

theorem aliasPlugin (h : Compatible S) (hr : Resolver.Related outer S resolve resolve')
    (plugin : AliasPlugin) (mapping : Mapping) (hc : callback.Related outer S callback') :
    S (plugin.handle mapping resolve request callback)
      (plugin.handle mapping resolve' request callback') := by
  unfold AliasPlugin.handle
  cases mapping.matchFrom? (plugin.subject request) with
  | error fault => exact h.fail fault
  | ok found =>
    cases found with
    | none =>
      exact h.left_when (unseen_trace _) plugin.traced
        (h.right_when (unseen_trace _) plugin.traced (hc.invoke []))
    | some found =>
      exact h.left_when (unseen_trace _) plugin.traced
        (h.right_when (unseen_trace _) plugin.traced (h.delegate hr _ _ request _ hc))

theorem moduleRoot (h : Compatible S) (hr : Resolver.Related outer S resolve resolve')
    (rule : ModuleRoot) (hc : callback.Related outer S callback') :
    S (rule.handle resolve request callback) (rule.handle resolve' request callback') := by
  unfold ModuleRoot.handle
  cases request.wanted? with
  | none => exact hc.invoke []
  | some specifier =>
    apply h.nested hc.like hc.like' hc.invoke
    intro nested nested' hn
    exact hr _ _ _ _ _ hn

theorem answers (h : Compatible S) (hc : callback.Related outer S callback')
    (answers : List (List Value)) :
    S (answers.forM callback.invoke) (answers.forM callback'.invoke) := by
  induction answers with
  | nil => exact h.done
  | cons answer answers ih => exact h.seq (hc.invoke answer) ih

theorem script (h : Compatible S) (script : Script) (hc : callback.Related outer S callback') :
    S (script.handle request callback) (script.handle request callback') := by
  unfold Script.handle
  split
  · exact hc.invoke []
  · apply h.left (unseen_forM fun line => callback.unseen_write line)
    intro _
    apply h.right (unseen_forM fun line => callback'.unseen_write line)
    intro _
    exact h.answers hc script.answers

/-- Every handler keeps runs abreast. -/
theorem handler (h : Compatible S) (hr : Resolver.Related outer S resolve resolve')
    (handler : Handler) (hc : callback.Related outer S callback') :
    S (handler.handle resolve request callback) (handler.handle resolve' request callback') := by
  cases handler with
  | mapped plugin mapping => exact h.aliasPlugin hr plugin mapping hc
  | moduleRoot rule => exact h.moduleRoot hr rule hc
  | scripted script => exact h.script script hc

end Compatible

/-- The second handlers do what the first ones do, with mappings in between that do not claim the
request. Behind a mapping that claims it, or fails on it, any handlers may stand on either side. -/
inductive Interposed (request : Request) : List Handler → List Handler → Prop
  | nil : Interposed request [] []
  | both {handler handler' handlers handlers'} : Handler.handle handler = Handler.handle handler' →
      Interposed request handlers handlers' →
      Interposed request (handler :: handlers) (handler' :: handlers')
  | extra {plugin mapping handlers handlers'} :
      mapping.matchFrom? (AliasPlugin.subject plugin request) = .ok none →
      Interposed request handlers handlers' →
      Interposed request handlers (.mapped plugin mapping :: handlers')
  | decided {plugin plugin' mapping mapping'} (handlers handlers') :
      Mapping.matchFrom? mapping (AliasPlugin.subject plugin request) ≠ .ok none →
      Mapping.matchFrom? mapping' (AliasPlugin.subject plugin' request) ≠ .ok none →
      (Handler.mapped plugin mapping).handle = (Handler.mapped plugin' mapping').handle →
      Interposed request (.mapped plugin mapping :: handlers)
        (.mapped plugin' mapping' :: handlers')

namespace Interposed

variable {request : Request} {handlers handlers' more more' : List Handler}

theorem refl (request : Request) (handlers : List Handler) :
    Interposed request handlers handlers := by
  induction handlers with
  | nil => exact .nil
  | cons handler handlers ih => exact .both rfl ih

theorem append (h : Interposed request handlers handlers')
    (h' : Interposed request more more') :
    Interposed request (handlers ++ more) (handlers' ++ more') := by
  induction h with
  | nil => exact h'
  | both hh _ ih => exact .both hh ih
  | extra hm _ ih => exact .extra hm ih
  | decided handlers handlers' hm hm' hh => exact .decided _ _ hm hm' hh

theorem mapped {plugin : AliasPlugin} {mappings : List Mapping}
    (hm : ∀ m ∈ mappings, m.matchFrom? (plugin.subject request) = .ok none) :
    Interposed request [] (mappings.map (.mapped plugin)) := by
  induction mappings with
  | nil => exact .nil
  | cons mapping mappings ih =>
    obtain ⟨hfirst, hm⟩ := List.forall_mem_cons.mp hm
    exact .extra hfirst (ih hm)

end Interposed

namespace Compatible

variable {S : Resolution Unit → Resolution Unit → Prop} {outer : Carried}
  {resolve resolve' : Resolver} {callback callback' : Callback} {request : Request}

theorem inTurn_cons (h : Compatible S) (hr : Resolver.Related outer S resolve resolve')
    {fallback fallback' : Resolution Unit} {stage : String}
    (hc : callback.Related outer S callback') {handler handler' : Handler}
    (hh : handler.handle = handler'.handle) {handlers handlers' : List Handler}
    {index index' : Nat}
    (hrest : S (Host.inTurn resolve fallback stage request callback handlers (index + 1))
      (Host.inTurn resolve' fallback' stage request callback' handlers' (index' + 1))) :
    S (Host.inTurn resolve fallback stage request callback (handler :: handlers) index)
      (Host.inTurn resolve' fallback' stage request callback' (handler' :: handlers') index') := by
  rw [Host.inTurn, Host.inTurn, ← hh]
  apply h.nested hc.like hc.like'
  · intro args
    cases args with
    | nil => exact hrest
    | cons first rest => exact hc.invoke _
  · intro nested nested' hn
    exact h.handler hr handler hn

/-- Asking the handlers of a stage in turn keeps runs abreast. A handler that declines is as good as
none, and so is any handler behind one that decides. -/
theorem inTurn (h : Compatible S) (hr : Resolver.Related outer S resolve resolve')
    {fallback fallback' : Resolution Unit} (hf : S fallback fallback') (stage : String)
    (hc : callback.Related outer S callback') {handlers handlers' : List Handler}
    (hi : Interposed request handlers handlers') (index index' : Nat) :
    S (Host.inTurn resolve fallback stage request callback handlers index)
      (Host.inTurn resolve' fallback' stage request callback' handlers' index') := by
  induction hi generalizing index index' with
  | nil => exact hf
  | both hh _ ih => exact h.inTurn_cons hr hc hh (ih (index + 1) (index' + 1))
  | @extra plugin mapping handlers handlers' hm _ ih =>
    -- only the second run asks this handler, and it hands over to the ones behind
    rw [Host.inTurn]
    apply of_nested h.right
    intro nested _ hw
    rw [Handler.handle, AliasPlugin.handle]
    simp only [hm]
    apply h.right_when (unseen_trace _)
    exact h.right_wraps hw (ih index (index' + 1))
  | decided handlers handlers' hm hm' hh =>
    -- as far as the runs are concerned, nothing stands behind these handlers
    have hcut := Host.inTurn_decided hm resolve fallback fallback stage callback [] handlers []
    have hcut' :=
      Host.inTurn_decided hm' resolve' fallback' fallback' stage callback' [] handlers' []
    rw [List.nil_append, List.nil_append] at hcut hcut'
    rw [hcut, hcut']
    exact h.inTurn_cons hr hc hh hf

end Compatible

namespace Host

/-- What a stage does when every handler has declined, with the lookup of paths left open. -/
def fallbackBy (look : String → Callback → Resolution Unit) (resolve : Resolver) (stage : String)
    (request : Request) (callback : Callback) : Resolution Unit :=
  if stage = sourceStage then resolve targetStage request "default" callback
  else if stage ≠ targetStage then callback.decline
  else
    match request.wanted? with
    | none => callback.decline
    | some specifier =>
      match specifier.toList.head? with
      | some '/' => look specifier callback
      | some '.' =>
        look ((Path.ofString request.path / Path.ofString specifier).normalize).toString callback
      | _ => resolve moduleStage request "resolve as module" callback

theorem fallbackBy_lookUp (host : Host) (resolve : Resolver) (stage : String) (request : Request)
    (callback : Callback) :
    fallbackBy host.lookUp resolve stage request callback =
      host.fallback resolve stage request callback :=
  rfl

/-- What a stage does with a request, given its handlers and the lookup of paths. -/
def serve (look : String → Callback → Resolution Unit) (resolve : Resolver)
    (handlers : List Handler) (stage : String) (request : Request) (callback : Callback) :
    Resolution Unit :=
  inTurn resolve (fallbackBy look resolve stage request callback) stage request callback handlers 0

end Host

namespace Compatible

variable {S : Resolution Unit → Resolution Unit → Prop} {outer : Carried}
  {resolve resolve' : Resolver} {callback callback' : Callback} {request : Request}
  {look look' : String → Callback → Resolution Unit}

theorem fallbackBy (hr : Resolver.Related outer S resolve resolve')
    (hl : LookUpsRelated outer S look look') (stage : String) (request : Request)
    (hc : callback.Related outer S callback') :
    S (Host.fallbackBy look resolve stage request callback)
      (Host.fallbackBy look' resolve' stage request callback') := by
  unfold Host.fallbackBy
  split
  · exact hr _ _ _ _ _ hc
  · split
    · exact hc.invoke []
    · split
      · exact hc.invoke []
      · split
        · exact hl _ _ _ hc
        · exact hl _ _ _ hc
        · exact hr _ _ _ _ _ hc

/-- A whole stage keeps runs abreast. -/
theorem serve (h : Compatible S) (hr : Resolver.Related outer S resolve resolve')
    (hl : LookUpsRelated outer S look look') {handlers handlers' : List Handler}
    (hi : Interposed request handlers handlers') (stage : String)
    (hc : callback.Related outer S callback') :
    S (Host.serve look resolve handlers stage request callback)
      (Host.serve look' resolve' handlers' stage request callback') :=
  h.inTurn hr (fallbackBy hr hl stage request hc) stage hc hi 0 0

end Compatible

end ImportAlias.Pipeline
