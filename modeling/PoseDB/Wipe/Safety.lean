import PoseDB.Wipe.Success

/-!
# What a worker writes, whatever fails

`worker_safe`: every write of a worker is inside one of its items and has the labels of the item, also if calls fail
and the worker stops or limps on; a dry run writes nothing.
-/

set_option autoImplicit false

namespace PoseDB.Wipe
open Mem PoseDB.Graph

/-- The write is inside the item, and has its labels. -/
structure WorkItem.Allows (it : WorkItem) (cfg : Config) (output : Nat → Nat → Byte) (w : Write) : Prop where
  dev : w.dev = it.fd
  data : ∃ x, w.off = it.diskOff + x ∧ x + w.n ≤ it.len ∧ ∀ y < w.n, w.data y = labelByte cfg output it (x + y)

/-- A `pwrite_all` writes bytes of its buffer, also if it fails. -/
theorem pwriteAll_safe {fd : Nat} {buf : Nat → Byte} {len off : Nat} {outcomes : List Pwrite} {done : Nat}
    {r : List Write × Option Nat} (h : pwriteAll fd buf len off outcomes done = some r) :
    ∀ w ∈ r.1, w.dev = fd ∧ ∃ x, w.off = off + x ∧ x + w.n ≤ len ∧ ∀ y, w.data y = buf (x + y) := by
  induction outcomes generalizing done r with
  | nil =>
      rw [pwriteAll] at h
      split at h
      · cases h
      · cases h
        exact fun w hw => absurd hw List.not_mem_nil
  | cons outcome rest ih =>
      rw [pwriteAll.eq_def] at h
      dsimp only at h
      split at h
      · cases outcome with
        | eintr => exact ih h
        | failed errno =>
            cases h
            exact fun w hw => absurd hw List.not_mem_nil
        | wrote n =>
            dsimp only at h
            split at h
            · cases h
              exact fun w hw => absurd hw List.not_mem_nil
            · rw [Option.map_eq_some_iff] at h
              obtain ⟨r', hrest, rfl⟩ := h
              intro w hw
              rcases List.mem_cons.mp hw with rfl | hw
              · have hle : done + min n (len - done) ≤ len := by omega
                exact ⟨rfl, done, rfl, hle, fun _ => rfl⟩
              · exact ih hrest w hw
      · cases h
        exact fun w hw => absurd hw List.not_mem_nil

section Loops

variable {env : Env} {cfg : Config} {item : Nat} {it : WorkItem} {window stage : Nat} {st r : State}

/-- The writes of a state, but those of an older one, are allowed by the item; none is new in a dry run. -/
structure Adds (cfg : Config) (output : Nat → Nat → Byte) (it : WorkItem) (st r : State) : Prop where
  writes : ∀ w ∈ r.writes, w ∈ st.writes ∨ it.Allows cfg output w
  dry : cfg.dryRun = true → r.writes = st.writes

theorem Adds.of_eq {output : Nat → Nat → Byte} (h : r.writes = st.writes) : Adds cfg output it st r :=
  ⟨fun _ hw => .inl (h ▸ hw), fun _ => h⟩

theorem Adds.trans {output : Nat → Nat → Byte} {st' : State} (h : Adds cfg output it st st')
    (h' : Adds cfg output it st' r) : Adds cfg output it st r := by
  refine ⟨fun w hw => ?_, fun hdry => (h'.dry hdry).trans (h.dry hdry)⟩
  rcases h'.writes w hw with hw | hw
  · exact h.writes w hw
  · exact .inr hw

/-- The writes of a slice are allowed, where the staging buffer has its labels. -/
theorem slice_adds {pos s slice : Nat} {buf : Nat → Byte} {outcomes : List Pwrite} {p : List Write × Option Nat}
    (hslice : pos + s + slice ≤ it.len) (hbuf : ∀ x < slice, buf x = labelByte cfg env.output it (pos + s + x))
    (hp : pwriteAll it.fd buf slice (it.diskOff + pos + s) outcomes 0 = some p) (hdry : cfg.dryRun = false)
    (hr : r.writes = st.writes ++ p.1) : Adds cfg env.output it st r := by
  refine ⟨fun w hw => ?_, fun h => absurd (hdry.symm.trans h) Bool.false_ne_true⟩
  rw [hr] at hw
  rcases List.mem_append.mp hw with hw | hw
  · exact .inl hw
  · obtain ⟨hdev, x, hoff, hle, hdata⟩ := pwriteAll_safe hp w hw
    refine .inr ⟨hdev, pos + s + x, by omega, by omega, fun y hy => ?_⟩
    rw [hdata y, hbuf (x + y) (by omega), Nat.add_assoc (pos + s)]

/-- The slices of a window that is labelled, up to the call that fails. -/
theorem sliceLoop_safe {pos win s : Nat} (hwin : pos + win ≤ it.len)
    (hlabel : ∀ x < win, st.dBuf x = labelByte cfg env.output it (pos + x))
    (h : sliceLoop env cfg item it stage pos win s st = some r) : Adds cfg env.output it st r := by
  induction hn : win - s using Nat.strong_induction_on generalizing s st with
  | _ n ih =>
      rw [sliceLoop] at h
      split at h
      · rename_i hlt
        have hstage : ∀ x < min stage (win - s), store st.hStage 0 (min stage (win - s)) (fun x => st.dBuf (s + x)) x =
            labelByte cfg env.output it (pos + s + x) := fun x hx => by
          have hin := store_in st.hStage 0 (min stage (win - s)) (fun x => st.dBuf (s + x)) hx
          rw [Nat.zero_add] at hin
          rw [hin, hlabel (s + x) (by omega), Nat.add_assoc]
        have hslice : pos + s + min stage (win - s) ≤ it.len := by omega
        dsimp only at h
        split at h
        · cases h
          exact Adds.of_eq rfl
        · split at h
          · refine (Adds.of_eq ?_).trans (ih (win - (s + stage)) (by omega) ?_ h rfl)
            · rfl
            · exact hlabel
          · rename_i hdry
            have hdry := Bool.eq_false_iff.mpr hdry
            split at h
            · cases h
            · rename_i hws
              cases h
              exact slice_adds hslice hstage hws hdry rfl
            · rename_i ws hws
              refine (slice_adds hslice hstage hws hdry ?_).trans (ih (win - (s + stage)) (by omega) ?_ h rfl)
              · rfl
              · exact hlabel
      · cases h
        exact Adds.of_eq rfl

/-- The windows of an item; after a failure they are only labelled. -/
theorem windowLoop_safe {pos : Nat} (hit : it.Whole cfg) (hpos : cfg.superBytes ∣ pos)
    (h : windowLoop env cfg item it window stage pos st = some r) : Adds cfg env.output it st r := by
  induction hn : it.len - pos using Nat.strong_induction_on generalizing pos st with
  | _ n ih =>
      rw [windowLoop] at h
      split at h
      · rename_i hlt
        have hle := floorTo_le (min window (it.len - pos)) cfg.superBytes
        have hdvd := dvd_floorTo (min window (it.len - pos)) cfg.superBytes
        dsimp only at h
        generalize floorTo (min window (it.len - pos)) cfg.superBytes = win at h hle hdvd
        split at h
        · cases h
          exact Adds.of_eq rfl
        · split at h
          · cases h
            exact Adds.of_eq rfl
          · split at h
            · cases h
            · rename_i st1 hslice
              have hadds := sliceLoop_safe (by omega) (fun x hx => topoLabel_eq hit hpos hdvd hx) hslice
              have hrest := ih _ (by omega) (Nat.dvd_add hpos hdvd) h rfl
              refine (Adds.of_eq ?_).trans (hadds.trans hrest)
              rfl
      · cases h
        exact Adds.of_eq rfl

theorem itemLoop_safe {items : List WorkItem} (hitems : ∀ it ∈ items, it.Whole cfg)
    (h : itemLoop env cfg window stage items item st = some r) :
    (∀ w ∈ r.writes, w ∈ st.writes ∨ ∃ it ∈ items, it.Allows cfg env.output w) ∧
      (cfg.dryRun = true → r.writes = st.writes) := by
  induction items generalizing item st with
  | nil =>
      cases h
      exact ⟨fun w hw => .inl hw, fun _ => rfl⟩
  | cons it items ih =>
      rw [itemLoop] at h
      split at h
      · cases h
        exact ⟨fun w hw => .inl hw, fun _ => rfl⟩
      · split at h
        · cases h
        · rename_i st1 hwindow
          have hadds := windowLoop_safe (hitems it List.mem_cons_self) (Nat.dvd_zero _) hwindow
          have hsync : (if (st1.ok && !cfg.dryRun) = true then
              { st1 with fsyncs := st1.fsyncs ++ [(item, env.fsync item)] } else st1).writes = st1.writes := by
            split <;> rfl
          obtain ⟨hrest, hdry⟩ := ih (fun it' hit' => hitems it' (List.mem_cons_of_mem _ hit')) h
          rw [hsync] at hrest hdry
          refine ⟨fun w hw => ?_, fun h => (hdry h).trans (hadds.dry h)⟩
          rcases hrest w hw with hw | ⟨it', hit', hw⟩
          · exact (hadds.writes w hw).imp id fun hw => ⟨it, List.mem_cons_self, hw⟩
          · exact .inr ⟨it', List.mem_cons_of_mem _ hit', hw⟩

end Loops

/-- **Every write of a worker is inside one of its items, with the labels of the item, whatever fails.** -/
theorem worker_safe {env : Env} {cfg : Config} {items : List WorkItem} {dBuf hStage : Nat → Byte} {r : State}
    (hitems : ∀ it ∈ items, it.Whole cfg) (h : worker env cfg items (State.init dBuf hStage) = some r) :
    (∀ w ∈ r.writes, ∃ it ∈ items, it.Allows cfg env.output w) ∧ (cfg.dryRun = true → r.writes = []) := by
  have hnone : ∀ st : State, st.writes = [] →
      (∀ w ∈ st.writes, ∃ it ∈ items, it.Allows cfg env.output w) ∧ (cfg.dryRun = true → st.writes = []) := fun st hst =>
    ⟨fun w hw => (List.not_mem_nil (hst ▸ hw)).elim, fun _ => hst⟩
  unfold worker at h
  split at h
  · cases h
    exact hnone _ rfl
  · split at h
    · cases h
      exact hnone _ rfl
    · split at h
      · cases h
        exact hnone _ rfl
      · dsimp only at h
        split at h
        · cases h
          exact hnone _ rfl
        · split at h
          · cases h
            exact hnone _ rfl
          · split at h
            · cases h
              exact hnone _ rfl
            · rw [Option.map_eq_some_iff] at h
              obtain ⟨st, hloop, rfl⟩ := h
              obtain ⟨hwrites, hdry⟩ := itemLoop_safe hitems hloop
              refine ⟨fun w hw => ?_, hdry⟩
              rcases hwrites w hw with hw | hw
              · cases hw
              · exact hw

end PoseDB.Wipe
