/-!
# Values with a log

A computation that reports what it does is a value together with the reports, in the order in which
they were made.  What is computed never depends on what was reported before.
-/

namespace Relational

/-- A value, and what was reported while it was computed. -/
structure Logged (ε α : Type) where
  value : α
  events : Array ε

namespace Logged

variable {ε α β : Type}

/-- A value that was computed without a report. -/
@[inline] def silent (a : α) : Logged ε α := ⟨a, #[]⟩

/-- Go on with the value, and report behind what was reported already. -/
@[inline] def andThen (a : Logged ε α) (f : α → Logged ε β) : Logged ε β :=
  let b := f a.value
  ⟨b.value, a.events ++ b.events⟩

@[always_inline] instance : Monad (Logged ε) where
  pure := silent
  bind := andThen

/-- Report an event. -/
def report (e : ε) : Logged ε Unit := ⟨(), #[e]⟩

/-- Work that reports behind what was reported already. -/
def append (a : Logged ε α) : StateM (Array ε) α := fun reported => (a.value, reported ++ a.events)

/-- What work comes to, with all that it reports. -/
def gather (work : StateM (Array ε) α) : Logged ε α :=
  let (a, events) := work.run #[]
  ⟨a, events⟩

@[simp] theorem value_pure (a : α) : (pure a : Logged ε α).value = a := rfl

@[simp] theorem events_pure (a : α) : (pure a : Logged ε α).events = #[] := rfl

@[simp] theorem value_bind (a : Logged ε α) (f : α → Logged ε β) :
    (a >>= f).value = (f a.value).value := rfl

@[simp] theorem events_bind (a : Logged ε α) (f : α → Logged ε β) :
    (a >>= f).events = a.events ++ (f a.value).events := rfl

@[simp] theorem value_map (f : α → β) (a : Logged ε α) : (f <$> a).value = f a.value := rfl

theorem ext {a b : Logged ε α} (hv : a.value = b.value) (he : a.events = b.events) : a = b := by
  cases a
  simp_all

instance : LawfulMonad (Logged ε) := LawfulMonad.mk' _
  (fun _ => ext rfl Array.append_empty)
  (fun _ _ => ext rfl Array.empty_append)
  (fun _ _ _ => ext rfl Array.append_assoc)

end Logged

end Relational
