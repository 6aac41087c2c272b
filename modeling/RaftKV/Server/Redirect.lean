import Mathlib.Data.List.Perm.Subperm
import RaftKV.Server.KVServer

/-!
# Following a leader hint

The retry loops of `client/main.go`.  `doGet`, `doPut` and `doDelete` are one loop with
three commands: each attempt dials `addrs[attempt%len(addrs)]`, and a response with a
hint goes through `redirectFirst` to the list of the next attempt.  The loop is followed
here with the addresses it dials (`Dialed`), and with the list it holds before each
attempt (`ClientCommand.addrsAt`).

The two rotations do not agree.  `redirectFirst` puts the hint at position 0, and the
next attempt looks at position `(attempt+1)%len(addrs)`, which is another one unless the
length divides the number of the attempt (`hint_dialed_next_iff`).  What the list is
meant for holds: no address is lost from it (`ClientCommand.subperm_addrsAt`).
-/

namespace RaftKV.Server

/-! ## The loops -/

/-- `PutResponse` and `DeleteResponse`. -/
structure WriteResponse where
  leaderHint : String
  success : Bool
  deriving DecidableEq, Repr

/-- What `doPut` and `doDelete` print. -/
inductive WriteOutput
  /-- The text is "OK". -/
  | ok
  /-- The text is "%s failed after %d attempts: %v". -/
  | failed (command : String) (lastErr : Option String)
  deriving DecidableEq, Repr

/-- What comes of one attempt. -/
inductive Attempt (R : Type)
  | dialError (err : String)
  | rpcError (err : String)
  | response (resp : R)

def Reply.attempt : Reply → Attempt GetResponse
  | .dialError err => .dialError err
  | .rpcError err => .rpcError err
  | .response resp => .response resp

/-- Where the loops differ. -/
structure ClientCommand (R O : Type) where
  leaderHint : R → String
  /-- What a response without a hint makes the loop print, if it ends it. -/
  answer : R → Option O
  failed : Option String → O

def getCommand : ClientCommand GetResponse Output where
  leaderHint := GetResponse.leaderHint
  answer resp := some (if ¬ resp.found then .notFound else .value resp.value)
  failed := .failed

/-- A response without success is passed over in silence. -/
def writeCommand (name : String) : ClientCommand WriteResponse WriteOutput where
  leaderHint := WriteResponse.leaderHint
  answer resp := if resp.success then some .ok else none
  failed := .failed name

/-- The addresses that a loop has dialed, and what it prints. -/
structure Dialed (O : Type) where
  addrs : List String
  output : O
  deriving DecidableEq, Repr

def Dialed.prepend {O : Type} (addr : String) (d : Dialed O) : Dialed O :=
  ⟨addr :: d.addrs, d.output⟩

namespace ClientCommand

variable {R O : Type} (c : ClientCommand R O) (network : ℕ → String → Attempt R)

/-- The loop, with the number of attempts left. -/
def runFrom : ℕ → ℕ → Addrs → Option String → Dialed O
  | 0, _, _, lastErr => ⟨[], c.failed lastErr⟩
  | left + 1, attempt, addrs, lastErr =>
      match network attempt (addrs.pick attempt) with
      | .dialError err => (runFrom left (attempt + 1) addrs (some err)).prepend (addrs.pick attempt)
      | .rpcError err => (runFrom left (attempt + 1) addrs (some err)).prepend (addrs.pick attempt)
      | .response resp =>
          if c.leaderHint resp ≠ "" then
            (runFrom left (attempt + 1) (redirectFirst addrs (c.leaderHint resp)) lastErr).prepend
              (addrs.pick attempt)
          else
            match c.answer resp with
            | some output => ⟨[addrs.pick attempt], output⟩
            | none => (runFrom left (attempt + 1) addrs lastErr).prepend (addrs.pick attempt)

def run (addrs : Addrs) : Dialed O :=
  c.runFrom network maxRetries 0 addrs none

/-- The list after an attempt, unless the attempt ends the loop. -/
def nextAddrs (attempt : ℕ) (addrs : Addrs) : Option Addrs :=
  match network attempt (addrs.pick attempt) with
  | .dialError _ => some addrs
  | .rpcError _ => some addrs
  | .response resp =>
      if c.leaderHint resp ≠ "" then some (redirectFirst addrs (c.leaderHint resp))
      else if (c.answer resp).isSome then none
      else some addrs

/-- The list before an attempt, if the loop gets there. -/
def addrsAt (addrs : Addrs) : ℕ → Option Addrs
  | 0 => some addrs
  | attempt + 1 => (addrsAt addrs attempt).bind (c.nextAddrs network attempt)

end ClientCommand

/-- `doPut`. -/
def doPut (network : ℕ → String → Attempt WriteResponse) (addrs : Addrs) : Dialed WriteOutput :=
  (writeCommand "put").run network addrs

/-- `doDelete`. -/
def doDelete (network : ℕ → String → Attempt WriteResponse) (addrs : Addrs) :
    Dialed WriteOutput :=
  (writeCommand "delete").run network addrs

theorem runFrom_getCommand (network : ℕ → String → Reply) (left attempt : ℕ) (addrs : Addrs)
    (lastErr : Option String) :
    getCommand.runFrom (fun k addr => (network k addr).attempt) left attempt addrs lastErr =
      ⟨(dialedFrom network left attempt addrs).map Prod.snd,
        doGetFrom network left attempt addrs lastErr⟩ := by
  induction left generalizing attempt addrs lastErr with
  | zero => rfl
  | succ left ih =>
      rw [doGetFrom, dialedFrom, ClientCommand.runFrom]
      cases network attempt (addrs.pick attempt) with
      | dialError err => exact congrArg (Dialed.prepend _) (ih _ _ _)
      | rpcError err => exact congrArg (Dialed.prepend _) (ih _ _ _)
      | response resp =>
          change (if resp.leaderHint ≠ "" then
              (getCommand.runFrom (fun k addr => (network k addr).attempt) left (attempt + 1)
                (redirectFirst addrs resp.leaderHint) lastErr).prepend (addrs.pick attempt)
            else ⟨[addrs.pick attempt],
              if ¬ resp.found then .notFound else .value resp.value⟩) = _
          by_cases hhint : resp.leaderHint ≠ ""
          · simp only [if_pos hhint]
            exact congrArg (Dialed.prepend _) (ih _ _ _)
          · simp only [if_neg hhint]
            rfl

/-- `doGet` is the loop at its command, with the attempts it makes. -/
theorem run_getCommand (network : ℕ → String → Reply) (addrs : Addrs) :
    getCommand.run (fun k addr => (network k addr).attempt) addrs =
      ⟨(dialed network addrs).map Prod.snd, doGet network addrs⟩ :=
  runFrom_getCommand network maxRetries 0 addrs none

/-! ## What the loop dials -/

namespace ClientCommand

variable {R O : Type} {c : ClientCommand R O} {network : ℕ → String → Attempt R} {addrs a : Addrs}
  {k : ℕ}

theorem addrsAt_add_eq_none (h : c.addrsAt network addrs k = none) (j : ℕ) :
    c.addrsAt network addrs (k + j) = none := by
  induction j with
  | zero => exact h
  | succ j ih => rw [← Nat.add_assoc, addrsAt, ih, Option.bind_none]

/-- A round of the loop: the address at the attempt's place of the list, then the rest of
the loop with the next list, if there is one. -/
theorem addrs_runFrom_succ (c : ClientCommand R O) (network : ℕ → String → Attempt R)
    (left attempt : ℕ) (a : Addrs) (lastErr : Option String) :
    ∃ lastErr', (c.runFrom network (left + 1) attempt a lastErr).addrs =
      a.pick attempt :: ((c.nextAddrs network attempt a).map fun a' =>
        (c.runFrom network left (attempt + 1) a' lastErr').addrs).getD [] := by
  rw [runFrom, nextAddrs]
  cases network attempt (a.pick attempt) with
  | dialError err => exact ⟨some err, rfl⟩
  | rpcError err => exact ⟨some err, rfl⟩
  | response resp =>
      refine ⟨lastErr, ?_⟩
      by_cases hhint : c.leaderHint resp = ""
      · cases hanswer : c.answer resp with
        | some output => simp [hhint, hanswer]
        | none => simp [hhint, hanswer, Dialed.prepend]
      · simp [hhint, Dialed.prepend]

theorem getElem?_addrs_runFrom {left attempt j : ℕ} (lastErr : Option String)
    (h : c.addrsAt network addrs attempt = some a) (hj : j < left) :
    (c.runFrom network left attempt a lastErr).addrs[j]? =
      (c.addrsAt network addrs (attempt + j)).map fun a' => a'.pick (attempt + j) := by
  induction left generalizing attempt a j lastErr with
  | zero => omega
  | succ left ih =>
      obtain ⟨lastErr', hround⟩ := addrs_runFrom_succ c network left attempt a lastErr
      rw [hround]
      cases j with
      | zero => rw [List.getElem?_cons_zero, Nat.add_zero, h, Option.map_some]
      | succ j =>
          have hnext : c.addrsAt network addrs (attempt + 1) = c.nextAddrs network attempt a := by
            rw [addrsAt, h, Option.bind_some]
          rw [List.getElem?_cons_succ, show attempt + (j + 1) = attempt + 1 + j by omega]
          cases hstep : c.nextAddrs network attempt a with
          | none =>
              rw [addrsAt_add_eq_none (hnext.trans hstep)]
              rfl
          | some a' => exact ih lastErr' (hnext.trans hstep) (by omega)

/-- The loop dials, at each attempt it gets to, the attempt's place of its list. -/
theorem getElem?_addrs_run (hk : k < maxRetries) :
    (c.run network addrs).addrs[k]? =
      (c.addrsAt network addrs k).map fun a => a.pick k := by
  have hstart : c.addrsAt network addrs 0 = some addrs := rfl
  have h := getElem?_addrs_runFrom none hstart hk
  rwa [Nat.zero_add] at h

theorem nextAddrs_of_hint {resp : R} (hresp : network k (a.pick k) = .response resp)
    (hhint : c.leaderHint resp ≠ "") :
    c.nextAddrs network k a = some (redirectFirst a (c.leaderHint resp)) := by
  rw [nextAddrs, hresp]
  exact if_pos hhint

/-- The list after an attempt is the one before it or one that `redirectFirst` made. -/
theorem nextAddrs_cases {a' : Addrs} (h : c.nextAddrs network k a = some a') :
    a' = a ∨ ∃ hint, a' = redirectFirst a hint := by
  unfold nextAddrs at h
  split at h
  · exact .inl (Option.some.inj h).symm
  · exact .inl (Option.some.inj h).symm
  · split at h
    · exact .inr ⟨_, (Option.some.inj h).symm⟩
    · split at h
      · simp at h
      · exact .inl (Option.some.inj h).symm

end ClientCommand

/-! ## The list -/

theorem subperm_redirectFirst (a : Addrs) (hint : String) :
    a.1.Subperm (redirectFirst a hint).1 := by
  by_cases hmem : hint ∈ a.1
  · exact (List.perm_cons_erase hmem).subperm
  · change a.1.Subperm (hint :: a.1.erase hint)
    rw [List.erase_of_not_mem hmem]
    exact (List.sublist_cons_self hint a.1).subperm

/-- No address is dropped, however often the list is reordered. -/
theorem ClientCommand.subperm_addrsAt {R O : Type} {c : ClientCommand R O}
    {network : ℕ → String → Attempt R} {addrs a : Addrs} {k : ℕ}
    (h : c.addrsAt network addrs k = some a) : addrs.1.Subperm a.1 := by
  induction k generalizing a with
  | zero => rw [Option.some.inj h]
  | succ k ih =>
      obtain ⟨before, hbefore, hnext⟩ := Option.bind_eq_some_iff.mp h
      rcases nextAddrs_cases hnext with rfl | ⟨hint, rfl⟩
      · exact ih hbefore
      · exact (ih hbefore).trans (subperm_redirectFirst before hint)

/-- The hint is at position 0, and only a repeated address is at another one too. -/
theorem pick_redirectFirst_eq_iff (a : Addrs) (hint : String) (attempt : ℕ) :
    (redirectFirst a hint).pick attempt = hint ↔
      attempt % (redirectFirst a hint).1.length = 0 ∨
        (a.1.erase hint)[attempt % (redirectFirst a hint).1.length - 1]? = some hint := by
  have hlt : attempt % (redirectFirst a hint).1.length < (redirectFirst a hint).1.length :=
    Nat.mod_lt _ (List.length_pos_iff.mpr (redirectFirst a hint).2)
  have hpick : (redirectFirst a hint).1[attempt % (redirectFirst a hint).1.length]? =
      some ((redirectFirst a hint).pick attempt) := by
    rw [Addrs.pick, List.get_eq_getElem, List.getElem?_eq_getElem hlt]
  generalize attempt % (redirectFirst a hint).1.length = place at hpick ⊢
  change (hint :: a.1.erase hint)[place]? = _ at hpick
  cases place with
  | zero =>
      rw [List.getElem?_cons_zero, Option.some.injEq] at hpick
      simp [← hpick]
  | succ place =>
      rw [List.getElem?_cons_succ] at hpick
      rw [Nat.add_sub_cancel, hpick, Option.some.injEq]
      simp

/-! ## After a hint -/

/-- For every command, list and network, and every attempt but the last that gets a
response with a hint: the next attempt is made, it dials the attempt's place of the
redirected list, and that is the hint exactly if the place is the first or has the same
address once more.  No address of the original list is ever missing from the rotation. -/
theorem hint_dialed_next_iff {R O : Type} (c : ClientCommand R O) (network : ℕ → String → Attempt R)
    (addrs a : Addrs) (k : ℕ) (resp : R) (hk : k + 1 < maxRetries)
    (hreached : c.addrsAt network addrs k = some a)
    (hresp : network k (a.pick k) = .response resp) (hhint : c.leaderHint resp ≠ "") :
    (c.run network addrs).addrs[k]? = some (a.pick k) ∧
      (c.run network addrs).addrs[k + 1]? =
        some ((redirectFirst a (c.leaderHint resp)).pick (k + 1)) ∧
      ((c.run network addrs).addrs[k + 1]? = some (c.leaderHint resp) ↔
        (k + 1) % (redirectFirst a (c.leaderHint resp)).1.length = 0 ∨
          (a.1.erase (c.leaderHint resp))[
            (k + 1) % (redirectFirst a (c.leaderHint resp)).1.length - 1]? =
              some (c.leaderHint resp)) ∧
      ∀ j a', c.addrsAt network addrs j = some a' → addrs.1.Subperm a'.1 := by
  have hnext : c.addrsAt network addrs (k + 1) = some (redirectFirst a (c.leaderHint resp)) := by
    rw [ClientCommand.addrsAt, hreached, Option.bind_some,
      ClientCommand.nextAddrs_of_hint hresp hhint]
  have hdialed : (c.run network addrs).addrs[k + 1]? =
      some ((redirectFirst a (c.leaderHint resp)).pick (k + 1)) := by
    rw [ClientCommand.getElem?_addrs_run hk, hnext, Option.map_some]
  refine ⟨?_, hdialed, ?_, fun j a' => ClientCommand.subperm_addrsAt⟩
  · rw [ClientCommand.getElem?_addrs_run (by omega), hreached, Option.map_some]
  · rw [hdialed, Option.some.injEq]
    exact pick_redirectFirst_eq_iff _ _ _

/-- Three servers; all but the second name the second as leader. -/
def followers : ℕ → String → Attempt WriteResponse := fun _ addr =>
  if addr = "b:7001" then .response ⟨"", true⟩ else .response ⟨"b:7001", false⟩

/-- Two servers, and the first to be dialed is a follower: the attempt behind the second
hint is the one at position 0. -/
theorem hint_dialed_next_iff_twoServers :
    (doPut followers ⟨["a:7001", "b:7001"], by decide⟩).addrs[2]? = some "b:7001" := by
  have h := (hint_dialed_next_iff (writeCommand "put") followers ⟨["a:7001", "b:7001"], by decide⟩
    ⟨["b:7001", "a:7001"], by decide⟩ 1 ⟨"b:7001", false⟩ (by decide) (by decide +kernel)
    (by rfl) (by decide)).2.2.1
  exact h.mpr (.inl (by decide))

/-- The first of three servers names the second, and the next attempt dials the first
again, whatever the command. -/
theorem hint_not_dialed_next :
    (doPut followers ⟨["a:7001", "b:7001", "c:7001"], by decide⟩).addrs =
        ["a:7001", "a:7001", "c:7001", "b:7001"] ∧
      (doDelete followers ⟨["a:7001", "b:7001", "c:7001"], by decide⟩).addrs =
        ["a:7001", "a:7001", "c:7001", "b:7001"] ∧
      (getCommand.run (fun _ _ => .response ⟨"b:7001", [], [], false⟩)
        ⟨["a:7001", "b:7001", "c:7001"], by decide⟩).addrs[1]? = some "a:7001" := by
  decide +kernel

end RaftKV.Server
