import CountedHeap.Proofs.Client
import CountedHeap.Proofs.Turns

/-!
Programs that run against a session. A program owns the references that were answered to it and
that it has not given back. A collection counts the bindings and what they lead to and no
references that a program holds, so those from before a collection are kept apart from those
from after it.
-/

namespace CountedHeap

inductive Command
  | none
  | bool (b : Bool)
  | integer (n : Int64)
  | string (bytes : List UInt8)
  | list (elements : List Reference)
  | dict (pairs : List (Reference × Reference))
  | release (r : Reference)
  | assign (name : String) (value : Reference)
  | lookup (name : String)
  | unbind (name : String)
  | truthy (r : Reference)
  | unary (op : UnaryOperator) (r : Reference)
  | binary (op : BinaryOperator) (left right : Reference)
  | compare (op : Comparison) (left right : Reference)
  | subscript (r index : Reference)
  | assignItem (r index item : Reference)
  | deleteItem (r index : Reference)
  | call (name : String) (args : List Reference) (room : Option Nat)
  | collect

namespace Command

def callsCollector : Command → Bool
  | call name args _ => Builtin.ofName? name == some .gc && args.isEmpty
  | _ => false

def binds (g : Globals) : Command → Globals
  | assign name value =>
      if Session.singletons.contains name then g else (name, value) :: g.remove name
  | unbind name => if Session.singletons.contains name then g else g.remove name
  | _ => g

end Command

/-- A session with the references that a program owns: those that were answered since the last
collection, and those from before it. -/
structure Program where
  session : Session
  fresh : List Reference
  stale : List Reference

def gained (r : Reference) (owned : List Reference) : List Reference :=
  if r.isLive then r :: owned else owned

namespace Program

variable {α : Type}

def act (p : Program) (x : Turn α) : Except Fault (Option Program) := do
  let (_, session) ← x p.session
  return some { p with session }

def ask (p : Program) (x : Turn Reference) : Except Fault (Option Program) := do
  let (r, session) ← x p.session
  return some { p with session, fresh := gained r p.fresh }

section Asking

variable {p p' : Program}

theorem act_eq_some {x : Turn α} : p.act x = .ok (some p') ↔
    ∃ a session, x p.session = .ok (a, session) ∧ p' = { p with session } := by
  simp only [act, bind_eq_ok, pure_eq_ok, Option.some_inj, Prod.exists, eq_comm (b := p')]

theorem ask_eq_some {x : Turn Reference} : p.ask x = .ok (some p') ↔
    ∃ r session, x p.session = .ok (r, session) ∧
      p' = { p with session, fresh := gained r p.fresh } := by
  simp only [ask, bind_eq_ok, pure_eq_ok, Option.some_inj, Prod.exists, eq_comm (b := p')]

end Asking

def spend (p : Program) (r : Reference) : Program :=
  if p.fresh.contains r then { p with fresh := p.fresh.erase r }
  else { p with stale := p.stale.erase r }

def collected (p : Program) (session : Session) (fresh : List Reference) : Program :=
  ⟨session, fresh, p.fresh ++ p.stale⟩

open Session in
/-- The program after a command; none after a collection that failed. -/
def serve (p : Program) (q : Command) : Except Fault (Option Program) :=
  match q with
  | .none => p.ask noneRetained
  | .bool b => p.ask (boolRetained b)
  | .integer n => p.ask (integer n)
  | .string bytes => p.ask (string bytes)
  | .list elements => p.ask (list elements)
  | .dict pairs => p.ask (dict pairs)
  | .release r => (p.spend r).act (release r)
  | .assign name value => (p.spend value).act (assign name value)
  | .lookup name => p.ask (lookup name)
  | .unbind name => p.act (unbind name)
  | .truthy r => p.act (truthy r)
  | .unary op r => p.ask (unary op r)
  | .binary op left right => p.ask (binary op left right)
  | .compare op left right => p.ask (compareBy op left right)
  | .subscript r index => p.ask (subscript r index)
  | .assignItem r index item => p.act (assignItem r index item)
  | .deleteItem r index => p.act (deleteItem r index)
  | .call name args room => do
      if q.callsCollector then
        let ((r, _), session) ← call name args room p.session
        return if r.isLive then some (p.collected session [r]) else none
      else p.ask (Prod.fst <$> call name args room)
  | .collect => do
      match ← collect p.session with
      | (.ok _, session) => return some (p.collected session [])
      | (.error _, _) => return none

def client (p : Program) : Client := ⟨p.session.heap, p.session.globals, p.fresh, []⟩

/-- A program that keeps to this uses what it sees, and gives back what it owns. -/
def allows (p : Program) (spends : Reference → Bool) : Command → Bool
  | .none | .bool _ | .integer _ | .string _ | .lookup _ | .unbind _ | .collect => true
  | .list elements => elements.all p.client.sees
  | .dict pairs => pairs.all fun e => p.client.sees e.1 && p.client.sees e.2
  | .release r => spends r
  | .assign _ value => spends value && p.client.sees value
  | .truthy r | .unary _ r => p.client.sees r
  | .binary _ left right | .compare _ left right | .subscript left right
  | .deleteItem left right => p.client.sees left && p.client.sees right
  | .assignItem r index item => p.client.sees r && p.client.sees index && p.client.sees item
  | .call _ args _ => args.all p.client.sees

/-- Each reference is given back at most once, whenever it was answered. -/
def thrifty (p : Program) (q : Command) : Bool :=
  p.allows (fun r => p.fresh.contains r || p.stale.contains r) q

/-- As well, none is given back that a collection has passed over. -/
def prudent (p : Program) (q : Command) : Bool := p.allows p.fresh.contains q

/-- The programs that come from a new session by commands that keep to a rule. -/
inductive Run (rule : Program → Command → Bool) : Program → Prop
  | start {config : Config} {session : Session}
      (hnew : Session.ofConfig config = .ok (.ok session)) : Run rule ⟨session, [], []⟩
  | step {p p' : Program} {q : Command} (hp : Run rule p) (hq : rule p q = true)
      (hserve : p.serve q = .ok (some p')) : Run rule p'

section Sessions

variable (rule : Program → Command → Bool)

def play (p : Program) : List Command → Option Program
  | [] => some p
  | q :: rest =>
      if rule p q then
        match p.serve q with
        | .ok (some p') => p'.play rest
        | _ => none
      else none

def run (config : Config) (commands : List Command) : Option Program :=
  match Session.ofConfig config with
  | .ok (.ok session) => play rule ⟨session, [], []⟩ commands
  | _ => none

variable {rule} {p p' : Program} {commands : List Command}

theorem play_cons {q : Command} (hplay : p.play rule (q :: commands) = some p') :
    rule p q = true ∧ ∃ p₁, p.serve q = .ok (some p₁) ∧ p₁.play rule commands = some p' := by
  simp only [Program.play] at hplay
  split at hplay
  case isTrue hq =>
    split at hplay
    case h_1 p₁ hserve => exact ⟨hq, p₁, hserve, hplay⟩
    case h_2 => cases hplay
  case isFalse => cases hplay

theorem play_append {q : Command} {p₁ : Program} (hplay : p.play rule commands = some p₁)
    (hq : rule p₁ q = true) (hserve : p₁.serve q = .ok (some p')) :
    p.play rule (commands ++ [q]) = some p' := by
  induction commands generalizing p with
  | nil =>
    cases hplay
    simp only [List.nil_append, Program.play, hq, if_true, hserve]
  | cons q' rest ih =>
    obtain ⟨hq', p₂, hserve', hrest⟩ := play_cons hplay
    simp only [List.cons_append, Program.play, hq', if_true, hserve']
    exact ih hrest

theorem run_append {q : Command} {config : Config} {p₁ : Program}
    (hrun : run rule config commands = some p₁) (hq : rule p₁ q = true)
    (hserve : p₁.serve q = .ok (some p')) : run rule config (commands ++ [q]) = some p' := by
  unfold run at hrun ⊢
  split at hrun
  case h_1 => exact play_append hrun hq hserve
  case h_2 => cases hrun

theorem Run.play (hp : Run rule p) (hplay : p.play rule commands = some p') : Run rule p' := by
  induction commands generalizing p with
  | nil =>
    cases hplay
    exact hp
  | cons q rest ih =>
    obtain ⟨hq, p₁, hserve, hrest⟩ := play_cons hplay
    exact ih (.step hp hq hserve) hrest

theorem Run.of_run {config : Config} (hrun : run rule config commands = some p) : Run rule p := by
  unfold Program.run at hrun
  split at hrun
  case h_1 hnew => exact (Run.start hnew).play hrun
  case h_2 => cases hrun

end Sessions

end Program
end CountedHeap
