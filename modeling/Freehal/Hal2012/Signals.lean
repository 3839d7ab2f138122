import Freehal.Lib.Text

/-!
# Signals to the child

`hal2012_send_signal` and `hal2012_send_signals` of `hal2012-ipc.cpp`, for one thread. The function
that delivers the signals may send signals itself.
-/

namespace Freehal.Hal2012.Signals

structure Signal where
  vfile : Str
  data : Str
deriving DecidableEq

/-- The variables of the module, and two logs. -/
structure State where
  /-- A function is installed. -/
  sendSignalFunc : Bool
  signalsToChild : List Signal
  running : Bool
  /-- The calls of `sendSignal`, also those from inside a delivery. -/
  sent : List Signal
  /-- The calls of the installed function. -/
  delivered : List Signal
deriving DecidableEq

def start : State := ⟨false, [], false, [], []⟩

section

-- The signals that are sent from inside a delivery, for each delivery.
variable (answers : Nat → List Signal)

mutual

/-- With fuel for the calls inside of each other and the rounds of the loop. -/
def sendSignal : Nat → State → Signal → Option State
  | 0, _, _ => none
  | fuel + 1, s, signal =>
      sendSignals fuel
        { s with signalsToChild := s.signalsToChild ++ [signal], sent := s.sent ++ [signal] }

def sendSignals : Nat → State → Option State
  | 0, _ => none
  | fuel + 1, s =>
      if s.running then some s
      else if s.sendSignalFunc then do
        let s ← deliverFrom fuel 0 { s with running := true }
        some { s with signalsToChild := [], running := false }
      else some { s with running := false }

/-- The loop over the list, which may grow meanwhile. -/
def deliverFrom : Nat → Nat → State → Option State
  | 0, _, _ => none
  | fuel + 1, i, s =>
      match s.signalsToChild[i]? with
      | none => some s
      | some signal => do
          let s ← (answers s.delivered.length).foldlM (fun s answer => sendSignal fuel s answer)
            { s with delivered := s.delivered ++ [signal] }
          deliverFrom fuel (i + 1) s

end

/-! ## Runs -/

/-- What the program does outside of the deliveries. -/
inductive Event where
  | send (signal : Signal)
  | install
  | uninstall
  | flush

def step (fuel : Nat) (s : State) : Event → Option State
  | .send signal => sendSignal answers fuel s signal
  | .install => some { s with sendSignalFunc := true }
  | .uninstall => some { s with sendSignalFunc := false }
  | .flush => sendSignals answers fuel s

def run (fuel : Nat) (s : State) (events : List Event) : Option State :=
  events.foldlM (step answers fuel) s

end

/-! ## Fuel -/

/-- With enough fuel, the call returns a state. -/
def Returns (call : Nat → Option State) (s : State) : Prop :=
  ∃ fuel, ∀ more, fuel ≤ more → call more = some s

variable {answers : Nat → List Signal} {s s' : State} {i : Nat} {call call' : Nat → Option State}

/-- The call inside has less fuel. -/
theorem Returns.inside (h : Returns call s) (d : Nat)
    (hcall : ∀ fuel, call' (fuel + d) = call fuel) : Returns call' s := by
  obtain ⟨fuel, hreturns⟩ := h
  refine ⟨fuel + d, fun more hmore => ?_⟩
  obtain ⟨k, rfl⟩ := Nat.exists_eq_add_of_le' hmore
  rw [← Nat.add_assoc, hcall]
  exact hreturns _ (Nat.le_add_left _ _)

theorem Returns.bind {next : State → Nat → Option State} (h : Returns call s)
    (hnext : Returns (next s) s') :
    Returns (fun fuel => (call fuel).bind fun s => next s fuel) s' := by
  obtain ⟨fuel, hreturns⟩ := h
  obtain ⟨fuel', hreturns'⟩ := hnext
  refine ⟨fuel + fuel', fun more hmore => ?_⟩
  have hcall := hreturns more (by omega)
  simp only [hcall, Option.bind_some]
  exact hreturns' more (by omega)

theorem returns_some (s : State) : Returns (fun _ => some s) s := ⟨0, fun _ _ => rfl⟩

/-! ## The loop -/

/-- In a delivery a signal is only put at the end of the list. -/
theorem sendSignal_of_running (hrunning : s.running = true) (fuel : Nat) (signal : Signal) :
    sendSignal answers (fuel + 2) s signal = some
      { s with signalsToChild := s.signalsToChild ++ [signal], sent := s.sent ++ [signal] } := by
  rw [sendSignal, sendSignals]
  exact if_pos hrunning

theorem sendAll_of_running (hrunning : s.running = true) (fuel : Nat) (signals : List Signal) :
    signals.foldlM (fun s answer => sendSignal answers (fuel + 2) s answer) s = some
      { s with signalsToChild := s.signalsToChild ++ signals, sent := s.sent ++ signals } := by
  induction signals generalizing s with
  | nil => simp
  | cons signal signals ih =>
      rw [List.foldlM_cons, sendSignal_of_running hrunning fuel signal]
      simpa using ih (s := { s with
        signalsToChild := s.signalsToChild ++ [signal], sent := s.sent ++ [signal] }) hrunning

/-- The state behind a delivery. -/
def State.deliver (answers : Nat → List Signal) (s : State) (signal : Signal) : State :=
  { s with
    signalsToChild := s.signalsToChild ++ answers s.delivered.length
    sent := s.sent ++ answers s.delivered.length
    delivered := s.delivered ++ [signal] }

theorem deliverFrom_some (hrunning : s.running = true) {signal : Signal}
    (h : s.signalsToChild[i]? = some signal) (fuel : Nat) :
    deliverFrom answers (fuel + 3) i s =
      deliverFrom answers (fuel + 2) (i + 1) (s.deliver answers signal) := by
  rw [deliverFrom, h]
  simp only []
  rw [sendAll_of_running (s := { s with delivered := s.delivered ++ [signal] }) hrunning fuel]
  rfl

theorem deliverFrom_none (h : s.signalsToChild[i]? = none) (fuel : Nat) :
    deliverFrom answers (fuel + 1) i s = some s := by
  rw [deliverFrom, h]

/-- In the loop, the signals up to `i` are the delivered ones and the others wait. -/
structure Delivering (i : Nat) (s : State) : Prop where
  running : s.running = true
  sent : s.delivered ++ s.signalsToChild.drop i = s.sent

theorem Delivering.deliver (h : Delivering i s) {signal : Signal}
    (hsignal : s.signalsToChild[i]? = some signal) :
    Delivering (i + 1) (s.deliver answers signal) := by
  obtain ⟨hlt, rfl⟩ := List.getElem?_eq_some_iff.mp hsignal
  have hrest : (s.signalsToChild ++ answers s.delivered.length).drop (i + 1) =
      s.signalsToChild.drop (i + 1) ++ answers s.delivered.length :=
    List.drop_append_of_le_length hlt
  have hsent := h.sent
  rw [List.drop_eq_getElem_cons hlt] at hsent
  refine ⟨h.running, ?_⟩
  simp only [State.deliver]
  rw [hrest, ← hsent]
  simp only [List.append_assoc, List.cons_append, List.nil_append]

/-- The loop ends with everything delivered. -/
def Delivers (answers : Nat → List Signal) (i : Nat) (s : State) : Prop :=
  ∃ s', Returns (fun fuel => deliverFrom answers fuel i s) s' ∧ s'.delivered = s'.sent ∧
    s'.sendSignalFunc = s.sendSignalFunc

theorem delivers_of_none (h : Delivering i s) (hnone : s.signalsToChild[i]? = none) :
    Delivers answers i s := by
  refine ⟨s, (returns_some s).inside 1 (deliverFrom_none hnone), ?_, rfl⟩
  rw [← h.sent, List.drop_eq_nil_of_le (List.getElem?_eq_none_iff.mp hnone), List.append_nil]

theorem delivers_of_some (h : Delivering i s) {signal : Signal}
    (hsignal : s.signalsToChild[i]? = some signal)
    (hrest : Delivers answers (i + 1) (s.deliver answers signal)) : Delivers answers i s := by
  obtain ⟨s', ⟨fuel, hends⟩, hsent, hfunc⟩ := hrest
  refine ⟨s', Returns.inside ⟨fuel, fun more hmore => hends (more + 2) (by omega)⟩ 3
    (deliverFrom_some h.running hsignal), hsent, hfunc⟩

/-- When no delivery sends anymore, the list does not grow. -/
theorem delivers_of_quiet (hquiet : ∀ k, s.delivered.length ≤ k → answers k = [])
    (h : Delivering i s) : Delivers answers i s := by
  induction hlen : s.signalsToChild.length - i generalizing i s with
  | zero => exact delivers_of_none h (List.getElem?_eq_none_iff.mpr (by omega))
  | succ n ih =>
      have hlt : i < s.signalsToChild.length := by omega
      refine delivers_of_some h (List.getElem?_eq_getElem hlt) (ih ?_ (h.deliver
        (List.getElem?_eq_getElem hlt)) ?_)
      · intro k hk
        rw [State.deliver, List.length_append] at hk
        exact hquiet k (by omega)
      · simp only [State.deliver, hquiet _ (Nat.le_refl _), List.append_nil]
        omega

theorem delivers {n : Nat} (hstops : ∀ k, n ≤ k → answers k = []) (h : Delivering i s) :
    Delivers answers i s := by
  induction hleft : n - s.delivered.length generalizing i s with
  | zero => exact delivers_of_quiet (fun k hk => hstops k (by omega)) h
  | succ m ih =>
      cases hsignal : s.signalsToChild[i]? with
      | none => exact delivers_of_none h hsignal
      | some signal =>
          refine delivers_of_some h hsignal (ih (h.deliver hsignal) ?_)
          rw [State.deliver, List.length_append, List.length_singleton]
          omega

/-! ## Outside of the loop -/

/-- The state behind the loop. -/
def State.cleared (s : State) : State := { s with signalsToChild := [], running := false }

/-- Outside of the deliveries, the signals that are not delivered yet wait in the list. -/
structure Waiting (s : State) : Prop where
  running : s.running = false
  sent : s.delivered ++ s.signalsToChild = s.sent

/-- The function is installed behind the event. -/
def Event.installs (installed : Bool) : Event → Bool
  | .install => true
  | .uninstall => false
  | _ => installed

theorem sendSignals_returns {n : Nat} (hstops : ∀ k, n ≤ k → answers k = []) (h : Waiting s) :
    ∃ s', Returns (fun fuel => sendSignals answers fuel s) s' ∧ Waiting s' ∧
      s'.sendSignalFunc = s.sendSignalFunc ∧
        (s.sendSignalFunc = true → s'.delivered = s'.sent ∧ s'.signalsToChild = []) := by
  have hrunning : ¬ s.running = true := by simp [h.running]
  by_cases hfunc : s.sendSignalFunc = true
  · have hdelivering : Delivering 0 { s with running := true } := ⟨rfl, h.sent⟩
    obtain ⟨s', hends, hsent, hsame⟩ := delivers hstops hdelivering
    have hdone : Returns (fun fuel => (deliverFrom answers fuel 0 { s with running := true }).bind
        fun s => some s.cleared) s'.cleared :=
      @Returns.bind _ _ _ (fun s _ => some s.cleared) hends (returns_some _)
    refine ⟨s'.cleared, hdone.inside 1 fun fuel => ?_, ⟨rfl, ?_⟩, hsame, fun _ => ⟨hsent, rfl⟩⟩
    · rw [sendSignals, if_neg hrunning, if_pos hfunc]
      rfl
    · exact (List.append_nil _).trans hsent
  · refine ⟨s, (returns_some s).inside 1 fun fuel => ?_, h, rfl, fun htrue => absurd htrue hfunc⟩
    rw [sendSignals, if_neg hrunning, if_neg hfunc, ← h.running]

theorem Waiting.send (h : Waiting s) (signal : Signal) : Waiting
    { s with signalsToChild := s.signalsToChild ++ [signal], sent := s.sent ++ [signal] } := by
  refine ⟨h.running, ?_⟩
  rw [← h.sent, List.append_assoc]

/-- Every event returns, and a signal that is sent with the function installed is delivered with all
signals before it. -/
theorem step_returns {n : Nat} (hstops : ∀ k, n ≤ k → answers k = []) (h : Waiting s)
    (event : Event) :
    ∃ s', Returns (fun fuel => step answers fuel s event) s' ∧ Waiting s' ∧
      s'.sendSignalFunc = event.installs s.sendSignalFunc ∧
        (∀ signal, event = .send signal → s.sendSignalFunc = true →
          s'.delivered = s'.sent ∧ s'.signalsToChild = []) := by
  cases event with
  | send signal =>
      obtain ⟨s', hends, hwaiting, hfunc, hall⟩ := sendSignals_returns hstops (h.send signal)
      exact ⟨s', hends.inside 1 fun fuel => by rw [step, sendSignal], hwaiting, hfunc,
        fun _ _ => hall⟩
  | install => exact ⟨_, returns_some _, ⟨h.running, h.sent⟩, rfl, nofun⟩
  | uninstall => exact ⟨_, returns_some _, ⟨h.running, h.sent⟩, rfl, nofun⟩
  | flush =>
      obtain ⟨s', hends, hwaiting, hfunc, -⟩ := sendSignals_returns hstops h
      exact ⟨s', hends, hwaiting, hfunc, nofun⟩

theorem returns_append {events events' : List Event}
    (h : Returns (fun fuel => run answers fuel start events) s)
    (h' : Returns (fun fuel => run answers fuel s events') s') :
    Returns (fun fuel => run answers fuel start (events ++ events')) s' :=
  (@Returns.bind _ _ _ (fun s fuel => run answers fuel s events') h h').inside 0
    fun _ => List.foldlM_append

/-- In every run the signals that are not delivered yet wait. -/
theorem run_returns {n : Nat} (hstops : ∀ k, n ≤ k → answers k = []) (h : Waiting s)
    (events : List Event) :
    ∃ s', Returns (fun fuel => run answers fuel s events) s' ∧ Waiting s' ∧
      s'.sendSignalFunc = events.foldl Event.installs s.sendSignalFunc := by
  induction events generalizing s with
  | nil => exact ⟨s, returns_some s, h, rfl⟩
  | cons event events ih =>
      obtain ⟨s₁, hstep, hwaiting₁, hfunc₁, -⟩ := step_returns hstops h event
      obtain ⟨s₂, hrun, hwaiting₂, hfunc₂⟩ := ih hwaiting₁
      refine ⟨s₂, hstep.bind hrun, hwaiting₂, ?_⟩
      rw [hfunc₂, hfunc₁, List.foldl_cons]

theorem installed_of_not_uninstall {events : List Event} (h : Event.uninstall ∉ events) :
    events.foldl Event.installs true = true := by
  induction events with
  | nil => rfl
  | cons event events ih =>
      obtain ⟨hne, hnot⟩ := not_or.mp (mt List.mem_cons.mpr h)
      have hevent : event.installs true = true := by
        cases event with
        | uninstall => exact absurd rfl hne
        | _ => rfl
      rw [List.foldl_cons, hevent]
      exact ih hnot

end Freehal.Hal2012.Signals
