import BootAssembly.DeviceTree.Path
import BootAssembly.Report

namespace BootAssembly.Patch

/-- A change to a device tree. What was changed before a failure stays changed. -/
def TreeEdit (α : Type) : Type := DeviceTree → Report α × DeviceTree

namespace TreeEdit

variable {α β : Type}

protected def pure (a : α) : TreeEdit α := fun t => (pure a, t)

protected def bind (x : TreeEdit α) (f : α → TreeEdit β) : TreeEdit β := fun t =>
  let (first, t) := x t
  match first.outcome with
  | .error e => (⟨.error e, first.trace⟩, t)
  | .ok a =>
    let (second, t) := f a t
    (⟨second.outcome, first.trace ++ second.trace⟩, t)

instance : Monad TreeEdit where
  pure := TreeEdit.pure
  bind := TreeEdit.bind

theorem bind_pure (x : TreeEdit α) : (x >>= pure) = x := by
  funext t
  show TreeEdit.bind x TreeEdit.pure t = x t
  rw [TreeEdit.bind]
  obtain ⟨⟨outcome, trace⟩, t'⟩ := x t
  cases outcome with
  | ok a =>
    show ((⟨.ok a, trace ++ []⟩, t') : Report α × DeviceTree) = (⟨.ok a, trace⟩, t')
    rw [List.append_nil]
  | error e => rfl

theorem bind_assoc (x : TreeEdit α) (f : α → TreeEdit β) {γ : Type} (g : β → TreeEdit γ) :
    (x >>= f) >>= g = x >>= fun a => f a >>= g := by
  funext t
  show TreeEdit.bind (TreeEdit.bind x f) g t = TreeEdit.bind x (fun a => TreeEdit.bind (f a) g) t
  simp only [TreeEdit.bind]
  obtain ⟨⟨outcome, trace⟩, t'⟩ := x t
  cases outcome with
  | error e => rfl
  | ok a =>
    dsimp only
    obtain ⟨⟨outcome, trace'⟩, t''⟩ := f a t'
    cases outcome with
    | error e => rfl
    | ok b => simp only [List.append_assoc]

instance : LawfulMonad TreeEdit :=
  LawfulMonad.mk' _ bind_pure (fun _ _ => rfl) fun x f g => bind_assoc x f g

def ofReport (x : Report α) : TreeEdit α := fun t => (x, t)

instance : MonadLift Report TreeEdit where
  monadLift := ofReport

instance : MonadLift (Except Fault) TreeEdit where
  monadLift x := ofReport (.ofExcept x)

def fail (fault : Fault) : TreeEdit α := ofReport (.fail fault)

def node? (path : String) : TreeEdit (Option DeviceTree.Node) := fun t => (pure (t.node? path), t)

def modifyNode (path : String) (f : DeviceTree.Node → DeviceTree.Node) : TreeEdit Unit :=
  fun t => (pure (), t.modifyNode path f)

end TreeEdit

end BootAssembly.Patch
