/-
  The order in which a disk serves its requests (kernel/device.c: get_next_req, device_request).

  `serveAll` is the chain of requests that `device_request` wakes when no request is added: each is
  chosen by `get_next_req` before the last one leaves the list.

  * `finish_fore`, `finish_back`: the neighbour that is chosen, by where the request is in the list;
  * `elevator_scan`: the disk sweeps to the end of the list, turns round and sweeps over the rest.
-/
import Rdix.Kernel.Device

namespace Rdix

section Sweep
variable {α : Type}

/-- The requests before and after the served one, in the order of a sweep and its return. -/
def sweep : Direct → List α → List α → List α
  | .fore, before, after => after ++ before.reverse
  | .back, before, after => before.reverse ++ after

theorem sweep_perm (direct : Direct) (before after : List α) :
    (sweep direct before after).Perm (before ++ after) := by
  cases direct with
  | fore => exact List.perm_append_comm.trans ((List.reverse_perm before).append_right after)
  | back => exact (List.reverse_perm before).append_right after

end Sweep

variable {T β : Type} [DecidableEq T] [DecidableEq β]

/-- The requests that are served after `req`: the next one is chosen, `req` leaves the list, and the
    next one is served. -/
def serveAll : ℕ → Device T β → Request T β → C (List (Request T β))
  | 0, _, _ => throw .loop
  | n + 1, d, req => do
    let r ← d.finish req
    match r.2 with
    | none => return []
    | some next => return next :: (← serveAll n r.1 next)

section Step
variable {d : Device T β} {r q : Request T β} {before after : List (Request T β)}

omit [DecidableEq T] [DecidableEq β] in
/-- A request is not among those before it. -/
theorem notMem_before (hn : (before ++ r :: after).Nodup) : r ∉ before := fun h =>
  (List.nodup_append.1 hn).2.2 r h r List.mem_cons_self rfl

/-- The new direction and the request that is chosen, by what is before and after the served one. -/
theorem getNextReq_eq (hl : d.request_list = before ++ r :: after) (hn : d.request_list.Nodup) :
    getNextReq d r = .ok (match d.req_direct with
      | .fore => if after = [] then (.back, before.getLast?) else (.fore, after.head?)
      | .back => if before = [] then (.fore, after.head?) else (.back, before.getLast?)) := by
  have hr : r ∉ before := notMem_before (hl ▸ hn)
  have hm : r ∈ d.request_list := by simp [hl]
  have hnext : nextOf d.request_list r = after.head? := by rw [hl, nextOf_append hr]
  have hprev : prevOf d.request_list r = before.getLast? := by rw [hl, prevOf_append hr]
  unfold getNextReq
  rw [cassert_pos hm, ok_bind, hnext, hprev]
  simp only [List.head?_eq_none_iff, List.getLast?_eq_none_iff]
  cases d.req_direct with
  | fore => by_cases ha : after = [] <;> simp [ha]
  | back => by_cases hb : before = [] <;> simp [hb]

/-- **`get_next_req` returns `NULL` just when the request is the only one.** -/
theorem getNextReq_none (hl : d.request_list = before ++ r :: after) (hn : d.request_list.Nodup) :
    (∃ direct, getNextReq d r = .ok (direct, none)) ↔ before = [] ∧ after = [] := by
  rw [getNextReq_eq hl hn]
  cases d.req_direct with
  | fore => by_cases ha : after = [] <;> simp [ha]
  | back => by_cases hb : before = [] <;> simp [hb]

/-- The served request has left the list, and the next one has been chosen. -/
theorem finish_eq {direct : Direct} {next : Option (Request T β)}
    (hl : d.request_list = before ++ r :: after) (hn : d.request_list.Nodup)
    (h : getNextReq d r = .ok (direct, next)) :
    d.finish r = .ok (⟨false, direct, before ++ after⟩, next) := by
  have herase : d.request_list.erase r = before ++ after := by
    rw [hl, List.erase_append_right _ (notMem_before (hl ▸ hn)), List.erase_cons_head]
  have h' : getNextReq { d with do_request := false } r = .ok (direct, next) := h
  unfold Device.finish
  dsimp only
  rw [h', ok_bind, herase]
  rfl

/-- One turn of the chain. -/
theorem serveAll_cons {n : ℕ} {direct : Direct} {visited : List (Request T β)}
    (hl : d.request_list = before ++ r :: after) (hn : d.request_list.Nodup)
    (h : getNextReq d r = .ok (direct, some q))
    (hrest : serveAll n ⟨false, direct, before ++ after⟩ q = .ok visited) :
    serveAll (n + 1) d r = .ok (q :: visited) := by
  unfold serveAll
  rw [finish_eq hl hn h, ok_bind]
  dsimp only
  rw [hrest]
  rfl

theorem serveAll_last {n : ℕ} {direct : Direct} (hl : d.request_list = before ++ r :: after)
    (hn : d.request_list.Nodup) (h : getNextReq d r = .ok (direct, none)) :
    serveAll (n + 1) d r = .ok [] := by
  unfold serveAll
  rw [finish_eq hl hn h, ok_bind]
  rfl

/-- **The disk sweeps to the end of the list, turns round and sweeps over the rest.** -/
theorem serveAll_sweep {n : ℕ} (hl : d.request_list = before ++ r :: after)
    (hn : d.request_list.Nodup) (hfuel : d.request_list.length ≤ n) :
    serveAll n d r = .ok (sweep d.req_direct before after) := by
  induction n generalizing d r before after with
  | zero =>
    rw [hl] at hfuel
    simp at hfuel
  | succ n ih =>
    have hnext := getNextReq_eq hl hn
    have hn' : (before ++ after).Nodup := by
      refine List.Nodup.sublist ?_ (hl ▸ hn)
      exact (List.sublist_cons_self r after).append_left before
    have hlen : (before ++ after).length ≤ n := by
      rw [hl] at hfuel
      simp only [List.length_append, List.length_cons] at hfuel ⊢
      omega
    cases hd : d.req_direct with
    | fore =>
      rw [hd] at hnext
      cases after with
      | cons q after => exact serveAll_cons hl hn hnext (ih rfl hn' hlen)
      | nil =>
        -- the sweep turns round at the end of the list
        rcases List.eq_nil_or_concat before with rfl | ⟨b, q, rfl⟩
        · exact serveAll_last hl hn hnext
        · rw [List.concat_eq_append] at hl hn' hlen hnext ⊢
          rw [List.getLast?_concat] at hnext
          have hrest : serveAll n ⟨false, .back, b ++ [q] ++ []⟩ q = .ok (sweep .back b []) :=
            ih (List.append_nil _) hn' hlen
          simpa [sweep] using serveAll_cons hl hn hnext hrest
    | back =>
      rw [hd] at hnext
      rcases List.eq_nil_or_concat before with rfl | ⟨b, q, rfl⟩
      · cases after with
        | nil => exact serveAll_last hl hn hnext
        | cons q after =>
          -- the sweep turns round at the beginning of the list
          have hrest : serveAll n ⟨false, .fore, [] ++ q :: after⟩ q = .ok (sweep .fore [] after) :=
            ih rfl hn' hlen
          rw [sweep, List.reverse_nil, List.append_nil] at hrest
          exact serveAll_cons hl hn hnext hrest
      · rw [List.concat_eq_append] at hl hn' hlen hnext ⊢
        dsimp only at hnext
        rw [List.getLast?_concat, if_neg (by simp)] at hnext
        have hrest : serveAll n ⟨false, .back, b ++ [q] ++ after⟩ q = .ok (sweep .back b after) :=
          ih (by simp) hn' hlen
        simpa [sweep] using serveAll_cons hl hn hnext hrest

/-- **The request elevator is SCAN**: from any request and in either direction every other request is
    visited once, those on the way to the end of the list first and then the rest on the way back, and
    `get_next_req` returns `NULL` just when the request is the only one left. -/
theorem elevator_scan (hl : d.request_list = before ++ r :: after) (hn : d.request_list.Nodup) :
    (∀ n, d.request_list.length ≤ n → serveAll n d r = .ok (sweep d.req_direct before after)) ∧
    (sweep d.req_direct before after).Perm (d.request_list.erase r) ∧
    ((∃ direct, getNextReq d r = .ok (direct, none)) ↔ d.request_list = [r]) := by
  refine ⟨fun n hfuel => serveAll_sweep hl hn hfuel, ?_, ?_⟩
  · rw [hl, List.erase_append_right _ (notMem_before (hl ▸ hn)), List.erase_cons_head]
    exact sweep_perm _ _ _
  · rw [getNextReq_none hl hn, hl]
    constructor
    · rintro ⟨rfl, rfl⟩
      rfl
    · intro h
      rw [List.append_eq_singleton_iff] at h
      simpa using h

end Step

/-- Three requests, two of them with equal indices. -/
def threeRequests : Device (Fin 3) Unit :=
  ⟨true, .fore, [⟨.read, 2, (), 0⟩, ⟨.read, 4, (), 1⟩, ⟨.write, 4, (), 2⟩]⟩

/-- From the middle one the disk goes forward and then back. -/
theorem elevator_scan_three : serveAll 3 threeRequests ⟨.read, 4, (), 1⟩ =
    .ok [⟨.write, 4, (), 2⟩, ⟨.read, 2, (), 0⟩] :=
  (@elevator_scan (Fin 3) Unit _ _ threeRequests ⟨.read, 4, (), 1⟩ [⟨.read, 2, (), 0⟩]
    [⟨.write, 4, (), 2⟩] rfl (by decide)).1 3 le_rfl

end Rdix
