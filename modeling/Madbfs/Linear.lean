/-
Linearizable histories.  A client sees the calls of the operations of an object
and their returns.  Where an implementation also has a point at which each
operation takes place, between its call and its return, the order of these
points is a sequential run that explains what is seen.
-/
import Mathlib.Data.List.Nodup
import Mathlib.Data.List.Basic

namespace Madbfs

namespace Linear

/-- What happens in the time of an operation. -/
inductive Action (ι Op Res : Type) where
  | call (i : ι) (op : Op)
  | commit (i : ι) (op : Op) (res : Res)
  | ret (i : ι) (res : Res)
deriving Repr, DecidableEq

variable {ι Op Res : Type}

def Action.seen : Action ι Op Res → Bool
  | .commit _ _ _ => false
  | _ => true

def Action.committed : Action ι Op Res → Option (ι × Op × Res)
  | .commit i op res => some (i, op, res)
  | _ => none

/-- What the clients see of a trace. -/
def history (trace : List (Action ι Op Res)) : List (Action ι Op Res) :=
  trace.filter Action.seen

/-- The operations of a trace in the order in which they take place. -/
def commits (trace : List (Action ι Op Res)) : List (ι × Op × Res) :=
  trace.filterMap Action.committed

@[simp] theorem commits_append (trace more : List (Action ι Op Res)) :
    commits (trace ++ more) = commits trace ++ commits more :=
  List.filterMap_append

theorem mem_commits_append {trace : List (Action ι Op Res)} {i : ι}
    {res : Res} (h : ∃ op, (i, op, res) ∈ commits trace)
    (more : List (Action ι Op Res)) :
    ∃ op, (i, op, res) ∈ commits (trace ++ more) := by
  obtain ⟨op, hop⟩ := h
  exact ⟨op, commits_append _ _ ▸ List.mem_append_left _ hop⟩

/-- The traces in which every operation takes place at most once, after its
call, and before it returns something definite. -/
inductive Timed (definite : Res → Prop) : List (Action ι Op Res) → Prop
  | nil : Timed definite []
  | call {trace : List (Action ι Op Res)} {i : ι} {op : Op}
      (h : Timed definite trace) (hnew : ∀ op, .call i op ∉ trace) :
      Timed definite (trace ++ [.call i op])
  | commit {trace : List (Action ι Op Res)} {i : ι} {op : Op} {res : Res}
      (h : Timed definite trace) (hcall : .call i op ∈ trace)
      (hnew : i ∉ (commits trace).map Prod.fst) :
      Timed definite (trace ++ [.commit i op res])
  | ret {trace : List (Action ι Op Res)} {i : ι} {res : Res}
      (h : Timed definite trace)
      (hret : definite res → ∃ op, (i, op, res) ∈ commits trace) :
      Timed definite (trace ++ [.ret i res])

section Trace

variable {definite : Res → Prop} {trace : List (Action ι Op Res)}

theorem Timed.called (h : Timed definite trace) {i : ι} {op : Op} {res : Res}
    (hmem : (i, op, res) ∈ commits trace) : .call i op ∈ trace := by
  induction h with
  | nil => cases hmem
  | call h hnew ih =>
      rw [commits_append] at hmem
      rcases List.mem_append.mp hmem with hold | hlast
      · exact List.mem_append_left _ (ih hold)
      · cases hlast
  | commit h hcall hnew ih =>
      rw [commits_append] at hmem
      rcases List.mem_append.mp hmem with hold | hlast
      · exact List.mem_append_left _ (ih hold)
      · cases List.mem_singleton.mp hlast
        exact List.mem_append_left _ hcall
  | ret h hret ih =>
      rw [commits_append] at hmem
      rcases List.mem_append.mp hmem with hold | hlast
      · exact List.mem_append_left _ (ih hold)
      · cases hlast

theorem Timed.once (h : Timed definite trace) :
    ((commits trace).map Prod.fst).Nodup := by
  induction h with
  | nil => exact List.nodup_nil
  | call h hnew ih =>
      rw [commits_append]
      exact (List.append_nil _).symm ▸ ih
  | commit h hcall hnew ih =>
      rw [commits_append, List.map_append]
      refine List.nodup_append.mpr ⟨ih, List.nodup_singleton _, ?_⟩
      rintro i hi j hj rfl
      cases List.mem_singleton.mp hj
      exact hnew hi
  | ret h hret ih =>
      rw [commits_append]
      exact (List.append_nil _).symm ▸ ih

theorem Timed.answered (h : Timed definite trace) {i : ι} {res : Res}
    (hmem : .ret i res ∈ trace) (hdefinite : definite res) :
    ∃ op, (i, op, res) ∈ commits trace := by
  induction h with
  | nil => cases hmem
  | call h hnew ih =>
      rcases List.mem_append.mp hmem with hold | hlast
      · exact mem_commits_append (ih hold) _
      · cases List.mem_singleton.mp hlast
  | commit h hcall hnew ih =>
      rcases List.mem_append.mp hmem with hold | hlast
      · exact mem_commits_append (ih hold) _
      · cases List.mem_singleton.mp hlast
  | ret h hret ih =>
      rcases List.mem_append.mp hmem with hold | hlast
      · exact mem_commits_append (ih hold) _
      · cases List.mem_singleton.mp hlast
        exact mem_commits_append (hret hdefinite) _

/-- Several operations return at once. -/
theorem Timed.returns (h : Timed definite trace) {rets : List (ι × Res)}
    (hrets : ∀ r ∈ rets, definite r.2 → ∃ op, (r.1, op, r.2) ∈ commits trace) :
    Timed definite (trace ++ rets.map fun r => .ret r.1 r.2) := by
  induction rets generalizing trace with
  | nil => exact (List.append_nil trace).symm ▸ h
  | cons r rets ih =>
      rw [List.map_cons, List.append_cons]
      apply ih (h.ret (hrets r List.mem_cons_self))
      intro r' hr' hdefinite
      exact mem_commits_append
        (hrets r' (List.mem_cons_of_mem _ hr') hdefinite) _

end Trace

end Linear

end Madbfs
