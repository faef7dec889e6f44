import BoatRudder.Db.UsersAdmin

/-! # The last administrator

The guards of the edit and delete routes count the administrators before the write, and only in some
cases. What a write does to the count (`UserCall.countAdmins_act`), and exactly when a run leaves an
administrator: **`admins_remain_iff`**. -/

namespace BoatRudder.Db

/-! ## What a write does to the count -/

namespace UserDocs

variable {users : UserDocs} {oid : IdHex}

/-- Whether `cms_count_admins` counts this user. -/
def counted (users : UserDocs) (oid : IdHex) : Bool := (users.find oid).any (·.role.counted)

theorem counted_eq (users : UserDocs) (oid : IdHex) :
    users.counted oid = (users.find? fun u => u.1 = oid).any fun u => u.2.role.counted := by
  rw [counted, find, Option.any_map]

end UserDocs

/-- An update counts one more or one less as the role it leaves is counted and the one before was. -/
theorem countAdmins_updateOne (users : UserDocs) (oid : IdHex) {f : UserDoc → UserDoc} {b : Bool}
    (hset : ∀ doc, (f doc).role.counted = b) :
    countAdmins (users.updateOne oid f) + (users.counted oid).toNat =
      countAdmins users + ((users.find oid).isSome && b).toNat := by
  have hcount := Collection.countP_updateOne (fun u : IdHex × UserDoc => u.1 = oid)
    (fun u => u.2.role.counted) (fun u => (u.1, f u.2)) users
  have hleft : ((users.find? fun u => u.1 = oid).any fun u => (f u.2).role.counted) =
      ((users.find oid).isSome && b) := by
    rw [UserDocs.find]
    cases users.find? fun u => u.1 = oid <;> simp [hset]
  rw [hleft, ← UserDocs.counted_eq] at hcount
  exact hcount

theorem countAdmins_deleteOne (users : UserDocs) (oid : IdHex) :
    countAdmins (users.deleteOne oid) + (users.counted oid).toNat = countAdmins users := by
  rw [UserDocs.counted_eq]
  exact Collection.countP_eraseP (fun u : IdHex × UserDoc => u.1 = oid)
    (fun u => u.2.role.counted) users

/-! ## The requests that take the role away -/

/-- Whether what is asked for leaves the user no administrator. -/
def UserAction.demotes : UserAction → Bool
  | .edit f => f.role != lit "admin"
  | .delete => true

/-- The collection after a write that is made and names a user. -/
theorem UserRequest.wrote_of_oid {r : UserRequest} (users : UserDocs) {oid : IdHex}
    (hwrite : r.write ≠ .failed) (hoid : oidFromString r.id = some oid) :
    r.wrote users =
      match r.action with
      | .edit f => users.updateOne oid (r.set f)
      | .delete => users.deleteOne oid := by
  rw [wrote, hoid]
  cases hw : r.write with
  | failed => exact absurd hw hwrite
  | done => cases r.action <;> rfl
  | unanswered => cases r.action <;> rfl

/-- A write that fails, or names no user, changes nothing. -/
theorem UserRequest.wrote_of_not {r : UserRequest} (users : UserDocs)
    (h : r.write = .failed ∨ oidFromString r.id = none) : r.wrote users = users := by
  rcases h with h | h
  · rw [wrote, h]
  · rw [wrote, h]
    cases r.write <;> rfl

namespace UserCall

/-- The user from whom the next step of a call takes the role of administrator, if it has it. -/
def takes (c : UserCall) : Option IdHex :=
  if c.phase = .write ∧ c.req.write ≠ .failed ∧ c.req.action.demotes = true then
    oidFromString c.req.id
  else none

variable {users : UserDocs} {c : UserCall}

/-- A step that takes no role away leaves the count, or raises it. -/
theorem countAdmins_le (h : ∀ oid, c.takes = some oid → users.counted oid = false) :
    countAdmins users ≤ countAdmins (c.act users).1 := by
  rw [act]
  by_cases hphase : c.phase = .write
  · rw [if_pos hphase]
    by_cases hnot : c.req.write = .failed ∨ oidFromString c.req.id = none
    · rw [UserRequest.wrote_of_not users hnot]
    · obtain ⟨hwrite, hnone⟩ := not_or.mp hnot
      obtain ⟨oid, hoid⟩ := Option.ne_none_iff_exists'.mp hnone
      rw [UserRequest.wrote_of_oid users hwrite hoid]
      cases haction : c.req.action with
      | edit f =>
        have hcount := countAdmins_updateOne users oid (f := c.req.set f)
          (b := f.role == lit "admin") fun _ => rfl
        by_cases hrole : f.role = lit "admin"
        · -- who is counted stays counted
          have hcounted : (users.counted oid).toNat ≤ (users.find oid).isSome.toNat := by
            unfold UserDocs.counted
            cases users.find oid <;> simp [Bool.toNat_le]
          simp only [hrole, beq_self_eq_true, Bool.and_true] at hcount
          show countAdmins users ≤ countAdmins (users.updateOne oid _)
          omega
        · have hkept := h oid (by simp [takes, hphase, hwrite, haction, hoid,
            UserAction.demotes, hrole])
          rw [hkept, Bool.toNat_false] at hcount
          show countAdmins users ≤ countAdmins (users.updateOne oid _)
          omega
      | delete =>
        have hcount := countAdmins_deleteOne users oid
        have hkept := h oid (by simp [takes, hphase, hwrite, haction, hoid,
          UserAction.demotes])
        rw [hkept, Bool.toNat_false] at hcount
        exact hcount.ge
  · rw [if_neg hphase]

/-- A step that takes the role from a user who is counted leaves one less. -/
theorem countAdmins_takes {oid : IdHex} (h : c.takes = some oid) (hcounted : users.counted oid = true) :
    countAdmins (c.act users).1 + 1 = countAdmins users := by
  rw [takes] at h
  split_ifs at h with hcond
  obtain ⟨hphase, hwrite, hdemotes⟩ := hcond
  rw [act, if_pos hphase, UserRequest.wrote_of_oid users hwrite h]
  cases haction : c.req.action with
  | edit f =>
    have hrole : f.role ≠ lit "admin" := by simpa [haction, UserAction.demotes] using hdemotes
    have hcount := countAdmins_updateOne users oid (f := c.req.set f) (b := false)
      fun doc => by simpa [UserRequest.set, RoleField.counted] using hrole
    rw [hcounted] at hcount
    simpa using hcount
  | delete =>
    have hcount := countAdmins_deleteOne users oid
    rwa [hcounted, Bool.toNat_true] at hcount

end UserCall

/-- **An administrator stays.** Where the next step of a call takes the role from a user who is
counted, he is not the only one. -/
def AdminStays (users : UserDocs) (c : UserCall) : Prop :=
  ∀ oid, c.takes = some oid → users.counted oid = true → countAdmins users ≠ 1

/-- A step leaves an administrator exactly when one stays. -/
theorem countAdmins_act_pos_iff {users : UserDocs} (h : 0 < countAdmins users) (c : UserCall) :
    0 < countAdmins (c.act users).1 ↔ AdminStays users c := by
  by_cases htakes : ∃ oid, c.takes = some oid ∧ users.counted oid = true
  · obtain ⟨oid, hoid, hcounted⟩ := htakes
    have hcount := UserCall.countAdmins_takes hoid hcounted
    constructor
    · intro hpos oid' _ _
      omega
    · intro hstays
      have hmore := hstays oid hoid hcounted
      omega
  · have hnone : ∀ oid, c.takes = some oid → users.counted oid = false := fun oid hoid =>
      Bool.eq_false_iff.mpr fun hcounted => htakes ⟨oid, hoid, hcounted⟩
    refine iff_of_true (h.trans_le (UserCall.countAdmins_le hnone)) fun oid hoid hcounted => ?_
    exact absurd ⟨oid, hoid, hcounted⟩ htakes

/-- **There is an administrator all along a run exactly when one stays at each step.** -/
theorem admins_remain_iff (users : UserDocs) (h : 0 < countAdmins users)
    (run : List (CallEvent UserRequest Empty)) :
    (∀ pre, pre <+: run → 0 < countAdmins ((usersAdmin users).machine.after pre).shared) ↔
      (usersAdmin users).EachStep AdminStays run :=
  Service.always_iff_eachStep (I := fun users => 0 < countAdmins users) h
    (fun _ c hpos => countAdmins_act_pos_iff hpos c) (fun _ e _ => e.elim) run

/-! ## Two administrators who act on each other -/

/-- The ids of two users. -/
def anaId : IdHex := lit "65a000000000000000000001"
def evaId : IdHex := lit "65a000000000000000000002"

/-- Two administrators. -/
def twoAdmins : UserDocs :=
  [(anaId, ⟨lit "Ana", lit "ana@example.org", some (lit "h"), .text (lit "admin")⟩),
    (evaId, ⟨lit "Eva", lit "eva@example.org", some (lit "h"), .absent⟩)]

/-- A request to make a user an author. -/
def demote (sender target : IdHex) (name : Bytes) : UserRequest where
  url := lit "/dashboard/users/65a000000000000000000002/edit"
  id := target
  action := .edit ⟨name, name, [], lit "author"⟩
  session := some sender

/-- Each makes the other an author; both sessions are looked up before either write. -/
def mutualDemotion : List (CallEvent UserRequest Empty) :=
  [.call (demote anaId evaId (lit "Eva")), .call (demote evaId anaId (lit "Ana"))] ++
    (List.replicate 5 [.run 0, .run 1]).flatten

/-- Nobody is an administrator any more. -/
theorem admins_run_out :
    ¬ ∀ pre, pre <+: mutualDemotion →
      0 < countAdmins ((usersAdmin twoAdmins).machine.after pre).shared := by
  intro h
  exact absurd (h mutualDemotion List.prefix_rfl) (by decide)

/-- A run of one request, of an administrator among two. -/
theorem admins_remain_twoAdmins :
    0 < countAdmins twoAdmins ∧
      ((∀ pre, pre <+: [.call (demote anaId evaId (lit "Eva"))] →
          0 < countAdmins ((usersAdmin twoAdmins).machine.after pre).shared) ↔
        (usersAdmin twoAdmins).EachStep AdminStays [.call (demote anaId evaId (lit "Eva"))]) :=
  ⟨by decide, admins_remain_iff twoAdmins (by decide) _⟩

end BoatRudder.Db
