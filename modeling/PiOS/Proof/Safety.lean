import PiOS.Proof.Alarms
import PiOS.Proof.Context
import PiOS.Proof.Lifecycle

namespace PiOS.Proof.Safety
open Alarms Kernel Lifecycle Transition

variable {k : KernelState} {m m' : Machine} {i : Nat} {p : Proc}

theorem run_stands {actions : List Action} (ready : Ready k)
    (reached : run Machine.step (Machine.start k) actions = some m) (goes : m.halted = none) : Stands m :=
  run_invariant (I := fun m : Machine => m.halted = none → Stands m)
    (fun _ _ _ inv taken => step_stands (inv (step_cases taken).1) taken) (fun _ => start_stands ready) reached goes

/-- A run in which no call stores behind an array and no handler returns with other tables. -/
def Leads (m m' : Machine) : Prop :=
  ∃ actions, Guarded Machine.step Intact m actions ∧ run Machine.step m actions = some m'

def childGone : Machine := (run Machine.step (Machine.start parentAndChild) childExits).get (by decide +kernel)

abbrev Bystander (j : Nat) (m : Machine) (action : Action) : Prop :=
  Intact m action ∧ m.kernel.currentProc ≠ some j ∧ ∀ p ∈ m.kernel.procs[j]?, p.state ≠ .unloaded

end PiOS.Proof.Safety
