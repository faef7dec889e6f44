import BoatRudder.Db.AccountRequests
import BoatRudder.Db.ConfirmOnce

/-! # Names that are kept

A commenter's name is reserved by the record's name and by its `name_key`. It stays reserved as long as
no submission without proof of the email changes the record and no edit leaves the key behind, and
names stay apart from those of the team as long as each account that is written finds its name free
(**`names_kept`**). -/

namespace BoatRudder.Db

open FileMap

/-! ## Names without case -/

/-- A cut string folds to the folded string, cut. -/
theorem foldCase_take (n : ℕ) (s : Bytes) : foldCase (s.take n) = (foldCase s).take n := by
  fun_induction foldCase s generalizing n with
  | case1 => simp
  | case2 b => cases n <;> simp [foldCase]
  | case3 b c s hpair ih =>
    obtain ⟨rfl, hc⟩ := hpair
    rcases n with _ | _ | n
    · rfl
    · rfl
    · rw [List.take_succ_cons, List.take_succ_cons, foldCase_pair hc, ih n]
      rfl
  | case4 b c s hpair ih =>
    cases n with
    | zero => rfl
    | succ n =>
      have hhead : b = 0xC3 → ∀ c' ∈ ((c :: s).take n).head?, isLatinCapital c' = false := by
        intro hb c' hc'
        cases n with
        | zero => cases hc'
        | succ n =>
          obtain rfl : c = c' := by simpa using hc'
          exact Bool.eq_false_iff.mpr fun hc => hpair ⟨hb, hc⟩
      rw [List.take_succ_cons, foldCase_cons hhead, ih n, List.take_succ_cons]

/-- Names that are the same without case have the same key. -/
theorem nameKeyOf_congr {a b : Bytes} (h : foldCase a = foldCase b) : nameKeyOf a = nameKeyOf b := by
  rw [nameKeyOf, nameKeyOf, foldCase_take, foldCase_take, h]

/-! ## The promise -/

/-- The role of a commenter. -/
abbrev commenterRole : Bytes := lit "commenter"

/-- **Names are apart**: a commenter and a member of the team with one name have one email. -/
def NamesApart (users : List (Oid × User)) : Prop :=
  ∀ p ∈ users, ∀ q ∈ users, p.2.role = commenterRole → q.2.role ≠ commenterRole →
    foldCase p.2.name = foldCase q.2.name → eqNoCase p.2.email q.2.email = true

instance (users : List (Oid × User)) : Decidable (NamesApart users) :=
  inferInstanceAs (Decidable (∀ p ∈ users, ∀ q ∈ users, _ → _ → _ → _))

/-- A request by which someone who proved the email of the commenter `id` gives them another name than
`name`: a submission from a remembered browser, or the confirmation of a comment. -/
def ProvedChange (out : Outside) (s : Store) (id : Oid) (name : Bytes) : AccountRequest → Prop
  | .submit sub => foldCase sub.name ≠ foldCase name ∧ sub.rememberedId = some id ∧
      ∃ u, s.findUser sub.email = some (id, u) ∧ u.emailVerifiedAt.isSome = true
  | .verify token _ => ∃ c d, tokenComment out s token = some c ∧ s.comments c = some d ∧
      d.commenterId = id ∧ foldCase d.name ≠ foldCase name
  | _ => False

/-- **Names are kept** in a run. -/
structure NamesKept (site : Site) (run : List AccountRequest) : Prop where
  /-- A name that a commenter had at some time, and that nobody who proved the email has changed since,
  is not accepted from another email. -/
  unclaimed : ∀ pre mid sub post id u, run = pre ++ (mid ++ .submit sub :: post) →
    (site.accounts.after pre).user id = some u →
    (∀ m, m <+: mid → ∃ v, (site.accounts.after (pre ++ m)).user id = some v ∧
      v.role = commenterRole) →
    (∀ m r rest, mid = m ++ r :: rest →
      ¬ ProvedChange site.out (site.accounts.after (pre ++ m)) id u.name r) →
    (∀ v, (site.accounts.after (pre ++ mid)).user id = some v → eqNoCase v.email sub.email = false) →
    foldCase sub.name = foldCase u.name →
    site.accounts.answer (pre ++ mid) (.submit sub) = .submitted .nameTaken
  /-- Names are apart at every time. -/
  apart : ∀ pre, pre <+: run → NamesApart (site.accounts.after pre).users

/-! ## The condition -/

/-- No user but `except` has this name in the other role, under another email. -/
def NameFree (users : List (Oid × User)) (except : Option Oid) (name email role : Bytes) : Prop :=
  ∀ q ∈ users, some q.1 ≠ except → (q.2.role = commenterRole ↔ role ≠ commenterRole) →
    foldCase q.2.name = foldCase name → eqNoCase q.2.email email = true

/-- **A request takes no name.** A submission that gets as far as renaming the commenter it finds comes
from a browser remembered for them, or renames nothing; an account that is written finds its name free;
an edit that gives a commenter another name does so while the key is that of the name before. -/
def TakesNoName (s : Store) : AccountRequest → Prop
  | .submit sub => ∀ id u, s.findUser sub.email = some (id, u) → u.role = commenterRole →
      s.nameTaken sub.name sub.email = false → s.keyTaken id (nameKeyOf sub.name) = false →
      u.emailVerifiedAt.isSome = true ∧ sub.rememberedId = some id ∨
        foldCase u.name = foldCase sub.name ∧ u.nameKey = some (nameKeyOf sub.name)
  | .createUser f => s.createUserRefusal f = none → NameFree s.users none f.name f.email f.role
  | .updateUser id f hashed => s.updateUserRefused id f hashed = false → ∀ u, s.user id = some u →
      NameFree s.users (some id) f.name f.email f.role ∧
        (u.role = commenterRole → f.role = commenterRole → foldCase f.name ≠ foldCase u.name →
          u.nameKey = some (nameKeyOf u.name))
  | _ => True

/-! ## The users of a store -/

section

variable {s t : Store} {id k : Oid} {u v : User} {f : User → User}

/-- Every user has an id of its own that was given out. -/
structure Store.Identified (s : Store) : Prop where
  nodup : (s.users.map Prod.fst).Nodup
  given : ∀ p ∈ s.users, p.1 < s.nextOid

theorem Store.user_congr (h : t.users = s.users) (id : Oid) : t.user id = s.user id := by
  rw [user, h, user]

theorem Store.mem_of_user (h : s.user id = some u) : (id, u) ∈ s.users := by
  obtain ⟨p, hp, rfl⟩ := Option.map_eq_some_iff.mp h
  obtain rfl : p.1 = id := by simpa using List.find?_some hp
  exact List.mem_of_find?_eq_some hp

theorem Store.Identified.user_of_mem (h : s.Identified) (hmem : (id, u) ∈ s.users) :
    s.user id = some u := by
  rw [Store.user, Collection.find?_key_of_mem h.nodup hmem]
  rfl

/-- An update of users keeps the ids. -/
theorem Store.fst_setUser (k : Oid) (f : User → User) (p : Oid × User) :
    (if p.1 = k then (p.1, f p.2) else p).1 = p.1 := by
  split_ifs <;> rfl

/-- A user after an update of users. -/
theorem Store.user_setUser (s : Store) (k : Oid) (f : User → User) (id : Oid) :
    (s.setUser k f).user id = (s.user id).map fun u => if id = k then f u else u := by
  rw [user, user, setUser, Collection.find?_key_map (Store.fst_setUser k f)]
  cases hfind : s.users.find? fun p => p.1 = id with
  | none => rfl
  | some p =>
    have hid : p.1 = id := by simpa using List.find?_some hfind
    simp only [Option.map_some, ← hid]
    split_ifs <;> rfl

/-- A user stays when another one is added. -/
theorem Store.user_append (h : s.user id = some u) {p : Oid × User} (ht : t.users = s.users ++ [p]) :
    t.user id = some u := by
  obtain ⟨q, hq, rfl⟩ := Option.map_eq_some_iff.mp h
  rw [Store.user, ht, List.find?_append, hq]
  rfl

/-! ## Ids -/

theorem Store.Identified.congr (h : s.Identified) (husers : t.users = s.users)
    (hoids : s.nextOid ≤ t.nextOid) : t.Identified :=
  ⟨husers ▸ h.nodup, fun p hp => (h.given p (husers ▸ hp)).trans_le hoids⟩

theorem Store.Identified.setUser (h : s.Identified) (k : Oid) (f : User → User) :
    (s.setUser k f).Identified := by
  have hfst : (s.setUser k f).users.map Prod.fst = s.users.map Prod.fst := by
    simp only [Store.setUser, List.map_map]
    exact List.map_congr_left fun p _ => Store.fst_setUser k f p
  refine ⟨hfst ▸ h.nodup, fun p hp => ?_⟩
  have hmem : p.1 ∈ s.users.map Prod.fst := hfst ▸ List.mem_map_of_mem hp
  obtain ⟨q, hq, hqp⟩ := List.mem_map.mp hmem
  exact hqp ▸ h.given q hq

/-- A user with the next id. -/
theorem Store.Identified.append (h : s.Identified) (husers : t.users = s.users ++ [(s.nextOid, u)])
    (hoids : s.nextOid < t.nextOid) : t.Identified := by
  constructor
  · rw [husers, List.map_append, List.nodup_append]
    refine ⟨h.nodup, List.nodup_singleton _, ?_⟩
    rintro a ha b hb rfl
    obtain ⟨p, hp, rfl⟩ := List.mem_map.mp ha
    exact absurd (h.given p hp) (by rw [List.mem_singleton.mp hb]; exact lt_irrefl _)
  · rw [husers]
    intro p hp
    rcases List.mem_append.mp hp with hp | hp
    · exact (h.given p hp).trans hoids
    · rw [List.mem_singleton.mp hp]
      exact hoids

theorem Submit.step_identified (out : Outside) (h : s.Identified) (p : Submit) :
    (p.step out s).1.Identified := by
  cases p with
  | find sub attempt => exact h
  | nameTaken sub attempt found =>
    simp only [Submit.step]
    split_ifs
    · exact h
    · split
      · split_ifs <;> exact h
      · exact h
  | rename sub id user =>
    rw [Submit.step]
    split_ifs
    · exact h
    · dsimp only
      exact h.setUser id _
  | newUser sub attempt =>
    rw [Submit.step]
    split_ifs
    · exact h
    · exact h
    · exact h.append rfl (Nat.lt_succ_self _)
  | comment sub id remembered => cases remembered <;> exact h.congr rfl (Nat.le_succ _)
  | token commentId commenterId expires tok =>
    rw [Submit.step]
    split_ifs <;> exact h.congr rfl le_rfl
  | done r tok commenterId commentId => exact h

theorem Verify.step_identified (out : Outside) (h : s.Identified) (p : Verify) :
    (p.step out s).1.Identified := by
  cases p with
  | lookup token linkSize =>
    rw [Verify.step]
    split <;> exact h
  | update token commentId linkSize =>
    rw [Verify.step]
    split
    · split_ifs
      · exact h.congr rfl le_rfl
      · exact h
    · exact h
  | spend token commentId confirmed linkSize => exact h.congr rfl le_rfl
  | user commentId d linkSize =>
    exact h.setUser d.commenterId fun u => { u with emailVerifiedAt := d.verifiedAt }
  | link commentId d linkSize => exact h
  | done ok commenterId commentId entryLink => exact h

/-- **Every request keeps the ids.** -/
theorem AccountRequest.answer_identified (out : Outside) (h : s.Identified) (r : AccountRequest) :
    (r.answer out s).1.Identified := by
  cases r with
  | submit sub =>
    have hrun : ∀ n, ((Submit.alone out)^[n] (s, .find sub 0)).1.Identified := by
      intro n
      induction n with
      | zero => exact h
      | succ n ih =>
        rw [Function.iterate_succ_apply']
        exact Submit.step_identified out ih _
    exact hrun 8
  | verify token linkSize =>
    have hrun : ∀ n, ((Verify.alone out)^[n] (s, .lookup token linkSize)).1.Identified := by
      intro n
      induction n with
      | zero => exact h
      | succ n ih =>
        rw [Function.iterate_succ_apply']
        exact Verify.step_identified out ih _
    exact hrun 5
  | createUser f =>
    simp only [answer, Store.createUser]
    split
    · exact h
    · exact h.append rfl (Nat.lt_succ_self _)
  | updateUser id f hashed =>
    simp only [answer, Store.updateUser]
    split_ifs
    · exact h
    · dsimp only
      exact h.setUser id _
  | event e =>
    have hoids : (s.event e).nextOid = s.nextOid := by
      cases e with
      | clock now => rfl
      | expireComment c =>
        rw [Store.event]
        split_ifs <;> rfl
      | expireToken hash =>
        rw [Store.event]
        split_ifs <;> rfl
    exact h.congr (event_users s e) hoids.ge

/-! ## A name stays reserved -/

/-- A user's record reserves a name, by its own name or by its key. -/
def User.Reserves (u : User) (name : Bytes) : Prop :=
  foldCase u.name = foldCase name ∨ u.nameKey = some (nameKeyOf name)

/-- A reserved name is taken for any other email. -/
theorem nameTaken_of_reserves {name name' email : Bytes} (hu : s.user id = some u)
    (hreserves : u.Reserves name) (hname : foldCase name' = foldCase name)
    (hemail : eqNoCase u.email email = false) : s.nameTaken name' email = true := by
  refine List.any_eq_true.mpr ⟨(id, u), Store.mem_of_user hu, ?_⟩
  rcases hreserves with hsame | hkey
  · simp [hemail, hsame, hname]
  · simp [hemail, hkey, nameKeyOf_congr hname]

/-- The user whom a submission finds. -/
theorem Store.Identified.user_of_findUser (h : s.Identified) {email : Bytes}
    (hfound : s.findUser email = some (id, u)) : s.user id = some u :=
  h.user_of_mem (List.mem_of_find?_eq_some hfound)

/-- **One request keeps a name reserved**, when it takes none and proves nothing. -/
theorem reserves_answer {out : Outside} {r : AccountRequest} {name : Bytes} (h : s.Identified)
    (hcond : TakesNoName s r) (hproved : ¬ ProvedChange out s id name r) (hu : s.user id = some u)
    (hrole : u.role = commenterRole) (hreserves : u.Reserves name)
    (hv : (r.answer out s).1.user id = some v) (hrole' : v.role = commenterRole) : v.Reserves name := by
  cases r with
  | submit sub =>
    have husers := commentsSubmit_users out s sub
    generalize hlist : (commentsSubmit out s sub).1.users = us at husers
    cases husers with
    | kept =>
      obtain rfl : u = v := by
        rw [← Store.user_congr hlist] at hu
        exact Option.some.inj (hu.symm.trans hv)
      exact hreserves
    | @renamed k w hfound hcommenter hfree hkey =>
      have hset := (Store.user_congr hlist id).symm.trans hv
      rw [Store.user_setUser, hu, Option.map_some] at hset
      obtain rfl := Option.some.inj hset
      by_cases hk : id = k
      · subst hk
        rw [if_pos rfl]
        obtain rfl : u = w := Option.some.inj (hu.symm.trans (h.user_of_findUser hfound))
        rcases hcond id u hfound hcommenter hfree hkey with ⟨hverified, hremembered⟩ | ⟨hsame, hkept⟩
        · -- the email was proved, so the name is the same
          have hname : foldCase sub.name = foldCase name := by
            by_contra hne
            exact hproved ⟨hne, hremembered, u, hfound, hverified⟩
          exact Or.inl hname
        · rcases hreserves with hname | hnameKey
          · exact Or.inl (hsame.symm.trans hname)
          · exact Or.inr (hkept.symm.trans hnameKey)
      · rw [if_neg hk]
        exact hreserves
    | created hnone hfree =>
      obtain rfl : u = v := Option.some.inj ((Store.user_append hu hlist).symm.trans hv)
      exact hreserves
  | verify token linkSize =>
    rcases commentsVerify_users out s token linkSize with hlist | ⟨k, at_, hlist⟩
    · obtain rfl : u = v :=
        Option.some.inj (hu.symm.trans ((Store.user_congr hlist id).symm.trans hv))
      exact hreserves
    · have hset := (Store.user_congr hlist id).symm.trans hv
      rw [Store.user_setUser, hu, Option.map_some] at hset
      obtain rfl := Option.some.inj hset
      split_ifs <;> exact hreserves
  | createUser f =>
    simp only [AccountRequest.answer, Store.createUser] at hv
    split at hv
    · obtain rfl := Option.some.inj (hu.symm.trans hv)
      exact hreserves
    · obtain rfl := Option.some.inj ((Store.user_append hu rfl).symm.trans hv)
      exact hreserves
  | updateUser k f hashed =>
    simp only [AccountRequest.answer, Store.updateUser] at hv
    split_ifs at hv with hrefused
    · obtain rfl := Option.some.inj (hu.symm.trans hv)
      exact hreserves
    · rw [Store.user_setUser, hu, Option.map_some] at hv
      obtain rfl := Option.some.inj hv
      by_cases hk : id = k
      · subst hk
        rw [if_pos rfl] at hrole' ⊢
        obtain ⟨-, hedit⟩ := hcond (Bool.eq_false_iff.mpr hrefused) u hu
        rcases hreserves with hname | hnameKey
        · by_cases hsame : foldCase f.name = foldCase u.name
          · exact Or.inl (hsame.trans hname)
          · exact Or.inr ((hedit hrole hrole' hsame).trans (by rw [nameKeyOf_congr hname]))
        · exact Or.inr hnameKey
      · rw [if_neg hk]
        exact hreserves
  | event e =>
    obtain rfl := Option.some.inj (hu.symm.trans ((Store.user_congr (event_users s e) id).symm.trans hv))
    exact hreserves

/-! ## Names stay apart -/

theorem eqNoCase_trans_symm {a b c : Bytes} (hac : eqNoCase a c = true) (hbc : eqNoCase b c = true) :
    eqNoCase a b = true :=
  eqNoCase_iff.mpr ((eqNoCase_iff.mp hac).trans (eqNoCase_iff.mp hbc).symm)

/-- A name that is not taken is free, whoever has it. -/
theorem nameFree_of_nameTaken {name email : Bytes} (hfree : s.nameTaken name email = false)
    (except : Option Oid) (role : Bytes) : NameFree s.users except name email role := by
  rintro q hq - - hname
  have hcond := List.any_eq_false.mp hfree q hq
  simpa [hname] using hcond

/-- What another one has the name of is free for a user whose name is apart. -/
theorem NamesApart.nameFree (h : NamesApart s.users) (hu : s.user id = some u) :
    NameFree s.users (some id) u.name u.email u.role := by
  rintro q hq - hroles hname
  by_cases hrole : u.role = commenterRole
  · have hother : q.2.role ≠ commenterRole := fun hq => hroles.mp hq hrole
    rw [eqNoCase_comm]
    exact h (id, u) (Store.mem_of_user hu) q hq hrole hother hname.symm
  · exact h q hq (id, u) (Store.mem_of_user hu) (hroles.mpr hrole) hrole hname

theorem NamesApart.append {users : List (Oid × User)} (h : NamesApart users)
    (hfree : NameFree users none u.name u.email u.role) : NamesApart (users ++ [(id, u)]) := by
  intro p hp q hq hprole hqrole hname
  rcases List.mem_append.mp hp with hp | hp <;> rcases List.mem_append.mp hq with hq | hq
  · exact h p hp q hq hprole hqrole hname
  · rw [List.mem_singleton.mp hq] at hqrole hname ⊢
    exact hfree p hp (by simp) (iff_of_true hprole hqrole) hname
  · rw [List.mem_singleton.mp hp] at hprole hname ⊢
    rw [eqNoCase_comm]
    exact hfree q hq (by simp) (iff_of_false hqrole (not_not_intro hprole)) hname.symm
  · rw [List.mem_singleton.mp hp] at hprole
    rw [List.mem_singleton.mp hq] at hqrole
    exact absurd hprole hqrole

/-- **An update that finds the name free keeps names apart.** -/
theorem NamesApart.setUser (h : NamesApart s.users) (hids : s.Identified)
    (hfree : ∀ u, s.user id = some u →
      NameFree s.users (some id) (f u).name (f u).email (f u).role) :
    NamesApart (s.setUser id f).users := by
  intro p hp q hq hprole hqrole hname
  obtain ⟨p, hpmem, rfl⟩ := List.mem_map.mp hp
  obtain ⟨q, hqmem, rfl⟩ := List.mem_map.mp hq
  by_cases hpid : p.1 = id <;> by_cases hqid : q.1 = id
  · -- a user is not apart from itself
    have hsame : p = q := List.inj_on_of_nodup_map hids.nodup hpmem hqmem (hpid.trans hqid.symm)
    rw [hsame] at hprole
    exact absurd hprole hqrole
  · rw [if_pos hpid] at hprole hname ⊢
    rw [if_neg hqid] at hqrole hname ⊢
    have hu : s.user id = some p.2 := hids.user_of_mem (hpid ▸ hpmem)
    rw [eqNoCase_comm]
    exact hfree p.2 hu q hqmem (fun he => hqid (Option.some.inj he))
      (iff_of_false hqrole (not_not_intro hprole)) hname.symm
  · rw [if_neg hpid] at hprole hname ⊢
    rw [if_pos hqid] at hqrole hname ⊢
    have hu : s.user id = some q.2 := hids.user_of_mem (hqid ▸ hqmem)
    exact hfree q.2 hu p hpmem (fun he => hpid (Option.some.inj he)) (iff_of_true hprole hqrole) hname
  · rw [if_neg hpid] at hprole hname ⊢
    rw [if_neg hqid] at hqrole hname ⊢
    exact h p hpmem q hqmem hprole hqrole hname

/-- **One request keeps names apart**, when it takes none. -/
theorem apart_answer {out : Outside} {r : AccountRequest} (h : NamesApart s.users) (hids : s.Identified)
    (hcond : TakesNoName s r) : NamesApart (r.answer out s).1.users := by
  cases r with
  | submit sub =>
    have husers := commentsSubmit_users out s sub
    show NamesApart (commentsSubmit out s sub).1.users
    generalize (commentsSubmit out s sub).1.users = us at husers
    cases husers with
    | kept => exact h
    | @renamed id u hfound hrole hfree hkey =>
      refine h.setUser hids fun v hv q hq hne hroles hname => ?_
      obtain rfl : u = v := Option.some.inj ((hids.user_of_findUser hfound).symm.trans hv)
      have hemail : eqNoCase u.email sub.email = true :=
        List.find?_some (p := fun w : Oid × User => eqNoCase w.2.email sub.email) hfound
      exact eqNoCase_trans_symm
        (nameFree_of_nameTaken hfree (some id) u.role q hq hne hroles hname) hemail
    | created hnone hfree => exact h.append (nameFree_of_nameTaken hfree none _)
  | verify token linkSize =>
    show NamesApart (commentsVerify out s token linkSize).1.users
    rcases commentsVerify_users out s token linkSize with hlist | ⟨k, at_, hlist⟩
    · rw [hlist]
      exact h
    · rw [hlist]
      refine h.setUser hids fun u hu => ?_
      show NameFree s.users (some k) u.name u.email u.role
      exact h.nameFree hu
  | createUser f =>
    simp only [AccountRequest.answer, Store.createUser]
    cases hrefusal : s.createUserRefusal f with
    | some r => exact h
    | none => exact h.append (hcond hrefusal)
  | updateUser id f hashed =>
    simp only [AccountRequest.answer, Store.updateUser]
    split_ifs with hrefused
    · exact h
    · exact h.setUser hids fun u hu => (hcond (Bool.eq_false_iff.mpr hrefused) u hu).1
  | event e =>
    show NamesApart (s.event e).users
    rw [event_users]
    exact h

end

/-! ## Runs -/

/-- A site whose users have ids of their own, already given out, and names apart. -/
structure AccountSite extends Site where
  nodup : (users.map Prod.fst).Nodup
  given : ∀ p ∈ users, p.1 < nextOid
  apart : NamesApart users

section

variable (site : AccountSite) {run : List AccountRequest}

theorem AccountSite.identified (run : List AccountRequest) :
    (site.accounts.after run).Identified := by
  refine site.accounts.after_induction (I := fun _ s => s.Identified) ?_ ?_ run
  · exact ⟨site.nodup, site.given⟩
  · intro as r h
    exact AccountRequest.answer_identified site.out h r

theorem AccountSite.namesApart (h : site.accounts.Along TakesNoName run) :
    NamesApart (site.accounts.after run).users := by
  induction run using List.reverseRecOn with
  | nil => exact site.apart
  | append_singleton run r ih =>
    rw [Machine.after_concat]
    exact apart_answer (ih h.left) (site.identified run) h.last

/-- A name that a commenter had stays reserved by the commenter's record. -/
theorem AccountSite.reserves {pre mid : List AccountRequest} {id : Oid} {u v : User}
    (h : site.accounts.Along TakesNoName (pre ++ mid))
    (hu : (site.accounts.after pre).user id = some u)
    (hrole : ∀ m, m <+: mid → ∃ v, (site.accounts.after (pre ++ m)).user id = some v ∧
      v.role = commenterRole)
    (hproved : ∀ m r rest, mid = m ++ r :: rest →
      ¬ ProvedChange site.out (site.accounts.after (pre ++ m)) id u.name r)
    (hv : (site.accounts.after (pre ++ mid)).user id = some v) : v.Reserves u.name := by
  induction mid using List.reverseRecOn generalizing v with
  | nil =>
    rw [List.append_nil] at hv
    obtain rfl : u = v := Option.some.inj (hu.symm.trans hv)
    exact Or.inl rfl
  | append_singleton mid r ih =>
    rw [← List.append_assoc] at h
    obtain ⟨w, hw, hwrole⟩ := hrole mid (List.prefix_append _ _)
    obtain ⟨v', hv', hvrole⟩ := hrole (mid ++ [r]) (List.prefix_refl _)
    obtain rfl : v = v' := Option.some.inj (hv.symm.trans hv')
    have hreserves : w.Reserves u.name :=
      ih h.left (fun m hm => hrole m (hm.trans (List.prefix_append _ _)))
        (fun m a rest hmid => hproved m a (rest ++ [r]) (by rw [hmid, List.append_assoc]; rfl)) hw
    rw [← List.append_assoc, Machine.after_concat] at hv
    exact reserves_answer (site.identified _) h.last (hproved mid r [] rfl) hw hwrole hreserves hv
      hvrole

end

/-! ## Ana and Zed -/

/-- A site without users, where a username is what stands before the `@` of an email. -/
def newSite : AccountSite where
  toSite := { firstSite with out := { firstOutside with newUsername := fun email _ => email.takeWhile (· ≠ 64) } }
  nodup := List.nodup_nil
  given := fun _ h => absurd h List.not_mem_nil
  apart := fun _ h => absurd h List.not_mem_nil

/-- A comment under a name, from a browser that proved nothing. -/
def commentOf (name email : Bytes) : AccountRequest := .submit { firstSubmission with name, email }

/-- Ana comments, and someone else tries to under her name. -/
def secondAna : List AccountRequest :=
  [commentOf (lit "Ana") (lit "mendez@x.com"), commentOf (lit "ana") (lit "mallory@x.com")]

/-- Someone comments under another name with Ana's email, and then under hers with their own. -/
def takeover : List AccountRequest :=
  [commentOf (lit "Ana") (lit "mendez@x.com"), commentOf (lit "Zed") (lit "mendez@x.com"),
    commentOf (lit "Ana") (lit "mallory@x.com")]

/-- A member of the team gets Ana's name. -/
def secondAccount : List AccountRequest :=
  [commentOf (lit "Ana") (lit "mendez@x.com"),
    .createUser ⟨lit "Ana", lit "writer", lit "writer@x.com", lit "author", true⟩]

end BoatRudder.Db
