import NzbFast.Rust.BTreeMap

/-!
# The books of the held-bytes park

`FilePark` (`crates/nzbkit/src/pool/park.rs`): files are parked in groups, and what a group has in
flight is counted by article. The counters that only diagnostics read are left out.
-/

namespace NzbFast.Pool

open NzbFast.Rust (BTreeMap)
open Option
open List

def EST_BODY_BYTES : Nat := 800 * 1024

structure GroupPark where
  allow : Nat
  inflight : Nat

/-- The allowance binds; the product saturates. -/
def GroupPark.full (g : GroupPark) : Bool :=
  decide (0 < g.inflight) && decide (g.allow ≤ min (g.inflight * EST_BODY_BYTES) (2 ^ 64 - 1))

structure FilePark where
  files : BTreeMap Nat
  groups : BTreeMap GroupPark
  /-- Article to the group its dispatch was counted against. -/
  counted : BTreeMap Nat
  nextGroup : Nat

namespace FilePark

def new : FilePark := ⟨.empty, .empty, .empty, 1⟩

def bump (groups : BTreeMap GroupPark) (group : Nat) (f : Nat → Nat) : BTreeMap GroupPark :=
  match groups.get group with
  | some g => groups.insert group { g with inflight := f g.inflight }
  | none => groups

def countOne (p : FilePark) (id group : Nat) : FilePark :=
  if (p.groups.get group).isNone then p
  else
    { p with
      counted := p.counted.insert id group
      groups := match p.counted.get id with
        | some prev => if prev = group then p.groups else bump (bump p.groups prev (· - 1)) group (· + 1)
        | none => bump p.groups group (· + 1) }

/-- The group that a park call joins, if a file of it is parked. -/
def joined (p : FilePark) (files : List Nat) : Option Nat := files.findSome? p.files.get

/-- The group that a park call opens otherwise; its number is a `u32`. -/
def groupFor (p : FilePark) (files : List Nat) : Nat := (p.joined files).getD (p.nextGroup % 2 ^ 32)

def allot (p : FilePark) (group allow : Nat) : FilePark :=
  { p with groups := p.groups.insert group ⟨allow, ((p.groups.get group).map (·.inflight)).getD 0⟩ }

/-- `set` with an allowance. -/
def park (p : FilePark) (files : List Nat) (allow : Nat) (inflightOf : Nat → List Nat) : FilePark :=
  let group := p.groupFor files
  let nextGroup := if (p.joined files).isSome then p.nextGroup else p.nextGroup + 1
  let (map, seeded) := files.foldl (fun s file =>
    (s.1.insert file group, if (s.1.get file).isNone then s.2 ++ inflightOf file else s.2)) (p.files, [])
  seeded.foldl (countOne · · group) { p.allot group allow with files := map, nextGroup }

def releaseOne (s : FilePark × List Nat) (file : Nat) : FilePark × List Nat :=
  match s.1.files.get file with
  | none => s
  | some group =>
    let p := { s.1 with files := s.1.files.remove file }
    if p.files.entries.any fun x => x.2 = group then (p, s.2)
    else ({ p with groups := p.groups.remove group }, s.2 ++ [group])

/-- `set` without. -/
def release (p : FilePark) (files : List Nat) : FilePark :=
  let (p, gone) := files.foldl releaseOne (p, [])
  { p with counted := p.counted.retain fun _ g => if g ∈ gone then none else some g }

def isOn (p : FilePark) : Bool := !p.files.entries.isEmpty

def isThrottling (p : FilePark) : Bool := p.isOn && p.groups.entries.any fun x => x.2.full

def groupOf (p : FilePark) (file : Nat) : Option Nat :=
  if file = 2 ^ 32 - 1 then none else p.files.get file

def defers (p : FilePark) (file : Nat) (promoted poolIdle : Bool) : Bool :=
  !promoted && ((p.groupOf file).bind p.groups.get).any GroupPark.full && !poolIdle

def notePick (p : FilePark) (id file : Nat) (dup : Bool) : FilePark :=
  if dup then p
  else match p.groupOf file with
    | some group => p.countOne id group
    | none => p

def noteLeft (p : FilePark) (id : Nat) : FilePark :=
  match p.counted.get id with
  | some group => { p with counted := p.counted.remove id, groups := bump p.groups group (· - 1) }
  | none => p

inductive Action where
  | park (files : List Nat) (allow : Nat) (inflightOf : Nat → List Nat)
  | release (files : List Nat)
  | pick (id file : Nat) (dup : Bool)
  | left (id : Nat)

def step (p : FilePark) : Action → FilePark
  | .park files allow inflightOf => p.park files allow inflightOf
  | .release files => p.release files
  | .pick id file dup => p.notePick id file dup
  | .left id => p.noteLeft id

def run (p : FilePark) (actions : List Action) : FilePark := actions.foldl step p

/-! ## The books -/

/-- The articles that the ownership map assigns to a group. -/
def owned (p : FilePark) (group : Nat) : Nat := p.counted.sum fun g => if g = group then 1 else 0

/-- The count of a group, if it is live. -/
def tally (groups : BTreeMap GroupPark) (group : Nat) : Option Nat := (groups.get group).map (·.inflight)

/-- What `books_balance` asserts. -/
structure Balance (p : FilePark) : Prop where
  inflight : ∀ group n, tally p.groups group = some n → n = p.owned group
  live : ∀ id group, p.counted.get id = some group → (p.groups.get group).isSome

/-- The live groups are those some file is parked under. -/
def Parked (p : FilePark) : Prop :=
  ∀ group, (p.groups.get group).isSome ↔ ∃ file, p.files.get file = some group

variable {p : FilePark} {id group file : Nat}

theorem tally_bump (groups : BTreeMap GroupPark) (group : Nat) (f : Nat → Nat) (n : Nat) :
    tally (bump groups group f) n = if n = group then (tally groups n).map f else tally groups n := by
  unfold bump tally
  cases hg : groups.get group with
  | none => by_cases h : n = group <;> simp [h, hg]
  | some g =>
    rw [BTreeMap.get_insert]
    by_cases h : n = group <;> simp [h, hg]

theorem isSome_tally (groups : BTreeMap GroupPark) (n : Nat) :
    (tally groups n).isSome = (groups.get n).isSome := isSome_map ..

theorem isSome_bump (groups : BTreeMap GroupPark) (group : Nat) (f : Nat → Nat) (n : Nat) :
    ((bump groups group f).get n).isSome = (groups.get n).isSome := by
  rw [← isSome_tally, ← isSome_tally, tally_bump]
  split
  · exact isSome_map ..
  · rfl

theorem owned_remove (p : FilePark) (id group : Nat) :
    p.owned group = (p.counted.remove id).sum (fun g => if g = group then 1 else 0) +
      if p.counted.get id = some group then 1 else 0 := by
  cases h : p.counted.get id with
  | none => rw [BTreeMap.remove_of_get_none h]; rfl
  | some g => rw [owned, BTreeMap.sum_remove _ (BTreeMap.get_eq_some.mp h)]; simp

theorem Balance.left (hb : Balance p) (id : Nat) :
    Balance (p.noteLeft id) ∧ (p.noteLeft id).files = p.files ∧
      ∀ n, ((p.noteLeft id).groups.get n).isSome = (p.groups.get n).isSome := by
  unfold noteLeft
  split
  case h_2 => exact ⟨hb, rfl, fun _ => rfl⟩
  rename_i group hid
  refine ⟨⟨fun n k hk => ?_, fun j n hj => ?_⟩, rfl, isSome_bump _ _ _⟩
  · have hold := owned_remove p id n
    rw [hid] at hold
    simp only [some.injEq] at hold
    rw [tally_bump] at hk
    rw [owned]
    split at hk
    · rename_i hn
      obtain ⟨k, hk', rfl⟩ := map_eq_some_iff.mp hk
      rw [if_pos hn.symm] at hold
      rw [hb.inflight n k hk', hold, Nat.add_sub_cancel]
    · rename_i hn
      rw [if_neg (Ne.symm hn)] at hold
      rw [hb.inflight n k hk, hold, add_zero]
  · dsimp only at hj ⊢
    rw [isSome_bump]
    exact hb.live j n (BTreeMap.get_eq_some.mpr
      (BTreeMap.mem_remove.mp (BTreeMap.get_eq_some.mp hj)).1)

/-- An article is counted once: it leaves the group it was counted against. -/
theorem Balance.countOne (hb : Balance p) (id group : Nat) :
    Balance (p.countOne id group) ∧ (p.countOne id group).files = p.files ∧
      ∀ n, ((p.countOne id group).groups.get n).isSome = (p.groups.get n).isSome := by
  obtain ⟨hleft, -, hkept⟩ := hb.left id
  have howned : ∀ n, (p.noteLeft id).owned n =
      (p.counted.remove id).sum fun g => if g = n then 1 else 0 := fun n => by
    unfold noteLeft
    split
    · rfl
    · rename_i hid
      rw [BTreeMap.remove_of_get_none hid, owned]
  unfold FilePark.countOne
  split
  · exact ⟨hb, rfl, fun _ => rfl⟩
  rename_i hlive
  generalize hg : (match p.counted.get id with
    | some prev => if prev = group then p.groups else bump (bump p.groups prev (· - 1)) group (· + 1)
    | none => bump p.groups group (· + 1)) = groups
  have htally : ∀ n, tally groups n = if n = group then (tally (p.noteLeft id).groups n).map (· + 1)
      else tally (p.noteLeft id).groups n := fun n => by
    rw [← hg]
    unfold noteLeft
    cases hid : p.counted.get id with
    | none => exact tally_bump ..
    | some prev =>
      dsimp only
      split
      · rename_i hprev
        rw [tally_bump, hprev]
        split
        · -- the count that goes down and up again is not zero
          cases ht : tally p.groups n with
          | none => rfl
          | some k =>
            have hold := owned_remove p id n
            rw [hid, hprev, if_pos (by simp_all), ← hb.inflight n k ht] at hold
            simp only [map_some, hold, Nat.add_sub_cancel]
        · rfl
      · exact tally_bump ..
  have hsome : ∀ n, (groups.get n).isSome = (p.groups.get n).isSome := fun n => by
    rw [← hkept, ← isSome_tally, ← isSome_tally, htally]
    split
    · exact isSome_map ..
    · rfl
  refine ⟨⟨fun n k hk => ?_, fun j n hj => ?_⟩, rfl, hsome⟩
  · rw [owned, BTreeMap.sum_insert, ← howned]
    rw [htally] at hk
    split at hk
    · rename_i hn
      obtain ⟨k, hk', rfl⟩ := map_eq_some_iff.mp hk
      rw [if_pos hn.symm, hleft.inflight n k hk']
    · rename_i hn
      rw [if_neg (Ne.symm hn), hleft.inflight n k hk]
      rfl
  · rw [hsome]
    rw [BTreeMap.get_insert] at hj
    split at hj
    · cases hj
      exact isSome_iff_ne_none.mpr (by simpa using hlive)
    · exact hb.live j n hj

theorem Balance.countAll (ids : List Nat) (group : Nat) : ∀ p : FilePark, Balance p →
    Balance (ids.foldl (FilePark.countOne · · group) p) ∧ (ids.foldl (FilePark.countOne · · group) p).files = p.files ∧
      ∀ n, ((ids.foldl (FilePark.countOne · · group) p).groups.get n).isSome = (p.groups.get n).isSome := by
  induction ids with
  | nil => exact fun p hb => ⟨hb, rfl, fun _ => rfl⟩
  | cons id ids ih =>
    intro p hb
    obtain ⟨hb₁, hf₁, hs₁⟩ := hb.countOne id group
    obtain ⟨hb₂, hf₂, hs₂⟩ := ih _ hb₁
    exact ⟨hb₂, hf₂.trans hf₁, fun n => (hs₂ n).trans (hs₁ n)⟩

theorem owned_eq_zero (h : ∀ id, p.counted.get id ≠ some group) : p.owned group = 0 := by
  refine sum_eq_zero_iff.mpr fun n hn => ?_
  obtain ⟨x, hx, rfl⟩ := mem_map.mp hn
  exact if_neg fun e => h x.1 (BTreeMap.get_eq_some.mpr (by rw [← e]; exact hx))

theorem Balance.allot (hb : Balance p) (group allow : Nat) : Balance (p.allot group allow) ∧
    ∀ n, ((p.allot group allow).groups.get n).isSome ↔ n = group ∨ (p.groups.get n).isSome := by
  have hget : ∀ n, (p.allot group allow).groups.get n = if n = group then
      some ⟨allow, ((p.groups.get group).map (·.inflight)).getD 0⟩ else p.groups.get n :=
    BTreeMap.get_insert _ _ _
  have hsome : ∀ n, ((p.allot group allow).groups.get n).isSome ↔ n = group ∨ (p.groups.get n).isSome :=
    fun n => by
      rw [hget]
      by_cases h : n = group <;> simp [h]
  refine ⟨⟨fun n k hk => ?_, fun id n hid => (hsome n).mpr (.inr (hb.live id n hid))⟩, hsome⟩
  rw [tally, hget] at hk
  split at hk
  · rename_i hn
    cases hk
    cases hg : p.groups.get group with
    | some g => exact hn ▸ hb.inflight group g.inflight (by rw [tally, hg]; rfl)
    | none =>
      refine (owned_eq_zero fun id hid => ?_).symm
      have := hb.live id n hid
      rw [hn, hg] at this
      cases this
  · exact hb.inflight n k hk

/-- Where a park call leaves the files. -/
theorem get_parkFiles (group : Nat) (inflightOf : Nat → List Nat) (files : List Nat) :
    ∀ s : BTreeMap Nat × List Nat, ∀ n, (files.foldl (fun s file => (s.1.insert file group,
      if (s.1.get file).isNone then s.2 ++ inflightOf file else s.2)) s).1.get n =
        if n ∈ files then some group else s.1.get n := by
  induction files with
  | nil => exact fun s n => rfl
  | cons file files ih =>
    intro s n
    rw [foldl_cons, ih]
    by_cases hn : n ∈ files
    · rw [if_pos hn, if_pos (mem_cons_of_mem _ hn)]
    · rw [if_neg hn, BTreeMap.get_insert]
      simp only [mem_cons, hn, or_false]

/-- A park call names a file, and leaves every other group that it takes a file from another one. -/
def Tidy (p : FilePark) : Action → Prop
  | .park files _ _ => files ≠ [] ∧ ∀ file ∈ files, ∀ g, p.files.get file = some g →
      g = p.groupFor files ∨ ∃ f ∉ files, p.files.get f = some g
  | _ => True

theorem Balance.park (hb : Balance p) (hp : Parked p) {files : List Nat} {allow : Nat}
    {inflightOf : Nat → List Nat} (ht : Tidy p (.park files allow inflightOf)) :
    Balance (p.park files allow inflightOf) ∧ Parked (p.park files allow inflightOf) := by
  obtain ⟨hne, ht⟩ := ht
  obtain ⟨file₀, hfile₀⟩ := exists_mem_of_ne_nil files hne
  unfold FilePark.park
  have hget := get_parkFiles (p.groupFor files) inflightOf files (p.files, [])
  dsimp only
  generalize files.foldl _ (p.files, []) = s at hget ⊢
  obtain ⟨hb₁, hsome₁⟩ := hb.allot (p.groupFor files) allow
  generalize hp₂ : ({ p.allot (p.groupFor files) allow with files := s.1, nextGroup := _ } : FilePark) = p₂
  have hb₂ : Balance p₂ := hp₂ ▸ ⟨hb₁.inflight, hb₁.live⟩
  obtain ⟨hb₃, hf₃, hs₃⟩ := hb₂.countAll s.2 (p.groupFor files)
  refine ⟨hb₃, fun n => ?_⟩
  rw [hf₃, hs₃, ← hp₂]
  simp only [hget]
  rw [hsome₁, hp n]
  constructor
  · rintro (rfl | ⟨file, hfile⟩)
    · exact ⟨file₀, if_pos hfile₀⟩
    · by_cases hin : file ∈ files
      · rcases ht file hin n hfile with rfl | ⟨f, hf, hn⟩
        · exact ⟨file₀, if_pos hfile₀⟩
        · exact ⟨f, by rw [if_neg hf, hn]⟩
      · exact ⟨file, by rw [if_neg hin, hfile]⟩
  · rintro ⟨file, hfile⟩
    split at hfile
    · exact .inl (some.inj hfile).symm
    · exact .inr ⟨file, hfile⟩

/-- The books while files are released: what a released group owned is dropped at the end. -/
structure Releasing (p : FilePark) (gone : List Nat) : Prop where
  inflight : ∀ group n, tally p.groups group = some n → n = p.owned group
  live : ∀ id group, p.counted.get id = some group → (p.groups.get group).isSome ∨ group ∈ gone
  dead : ∀ group ∈ gone, p.groups.get group = none
  parked : Parked p

theorem get_remove {α : Type} (m : BTreeMap α) (k n : Nat) :
    (m.remove k).get n = if n = k then none else m.get n := by
  refine ext fun v => ?_
  by_cases h : n = k <;> simp [h, BTreeMap.get_eq_some]

theorem Releasing.one {s : FilePark × List Nat} (hr : Releasing s.1 s.2) (file : Nat) :
    Releasing (releaseOne s file).1 (releaseOne s file).2 := by
  unfold releaseOne
  split
  · exact hr
  rename_i group hfile
  have hget := get_remove s.1.files file
  dsimp only
  split
  · rename_i hany
    obtain ⟨x, hx, hxg⟩ := any_eq_true.mp hany
    have hx' : (s.1.files.remove file).get x.1 = some group :=
      BTreeMap.get_eq_some.mpr (by rw [← of_decide_eq_true hxg]; exact hx)
    refine ⟨hr.inflight, hr.live, hr.dead, fun n => (hr.parked n).trans ⟨?_, ?_⟩⟩
    · rintro ⟨f, hf⟩
      by_cases hff : f = file
      · rw [hff, hfile] at hf
        exact ⟨x.1, hx'.trans hf⟩
      · exact ⟨f, by rw [hget, if_neg hff, hf]⟩
    · rintro ⟨f, hf⟩
      rw [hget] at hf
      split at hf
      · cases hf
      · exact ⟨f, hf⟩
  · rename_i hany
    have hno : ∀ f, (s.1.files.remove file).get f ≠ some group := fun f hf =>
      hany (any_eq_true.mpr ⟨_, BTreeMap.get_eq_some.mp hf, decide_eq_true rfl⟩)
    have hgroups := get_remove s.1.groups group
    refine ⟨fun n k hk => ?_, fun id n hid => ?_, fun n hn => ?_, fun n => ?_⟩
    · rw [tally, hgroups] at hk
      split at hk
      · cases hk
      · exact hr.inflight n k hk
    · dsimp only
      rw [hgroups]
      rcases hr.live id n hid with h | h
      · by_cases hn : n = group
        · exact .inr (mem_append.mpr (.inr (mem_singleton.mpr hn)))
        · exact .inl (by rwa [if_neg hn])
      · exact .inr (mem_append.mpr (.inl h))
    · dsimp only
      rw [hgroups]
      rcases mem_append.mp hn with hn | hn
      · rw [hr.dead n hn, ite_self]
      · rw [if_pos (mem_singleton.mp hn)]
    · dsimp only
      rw [hgroups]
      by_cases hn : n = group
      · rw [if_pos hn]
        exact ⟨nofun, fun ⟨f, hf⟩ => absurd (hn ▸ hf) (hno f)⟩
      · rw [if_neg hn, hr.parked n]
        refine exists_congr fun f => ?_
        rw [hget]
        split
        · rename_i hf
          rw [hf, hfile]
          exact ⟨fun e => absurd (some.inj e).symm hn, nofun⟩
        · rfl

theorem Balance.release (hb : Balance p) (hp : Parked p) (files : List Nat) :
    Balance (p.release files) ∧ Parked (p.release files) := by
  have hrun : ∀ (files : List Nat) (s : FilePark × List Nat), Releasing s.1 s.2 →
      Releasing (files.foldl releaseOne s).1 (files.foldl releaseOne s).2 := by
    intro files
    induction files with
    | nil => exact fun _ => id
    | cons file files ih => exact fun s hr => ih _ (hr.one file)
  have hr := hrun files (p, []) ⟨hb.inflight, fun id g h => .inl (hb.live id g h), nofun, hp⟩
  unfold FilePark.release
  generalize files.foldl releaseOne (p, []) = s at hr ⊢
  refine ⟨⟨fun n k hk => ?_, fun id n hid => ?_⟩, hr.parked⟩
  · have hn : n ∉ s.2 := fun hn => by
      rw [tally, hr.dead n hn] at hk
      cases hk
    rw [hr.inflight n k hk, owned, owned, BTreeMap.sum, BTreeMap.sum]
    dsimp only [BTreeMap.retain]
    generalize s.1.counted.entries = l
    induction l with
    | nil => rfl
    | cons x l ih =>
      by_cases hx : x.2 ∈ s.2
      · have hxn : x.2 ≠ n := fun e => hn (e ▸ hx)
        simp [hx, hxn, ih]
      · simp [hx, ih]
  · obtain ⟨⟨j, g⟩, hmem, hx⟩ := mem_filterMap.mp (BTreeMap.get_eq_some.mp hid)
    dsimp only at hx
    split at hx
    · cases hx
    · rename_i hg
      cases hx
      exact (hr.live id n (BTreeMap.get_eq_some.mpr hmem)).resolve_right hg

/-! ## Runs -/

/-- Every park call of a run is tidy where it is made. -/
def Clean : FilePark → List Action → Prop
  | _, [] => True
  | p, a :: actions => Tidy p a ∧ Clean (p.step a) actions

theorem Balance.step {a : Action} (hb : Balance p) (hp : Parked p) (ht : Tidy p a) :
    Balance (p.step a) ∧ Parked (p.step a) := by
  have hkeep : ∀ {q : FilePark}, Balance q ∧ q.files = p.files ∧
      (∀ n, (q.groups.get n).isSome = (p.groups.get n).isSome) → Balance q ∧ Parked q :=
    fun ⟨h, hf, hs⟩ => ⟨h, fun n => by rw [hs, hf, hp n]⟩
  cases a with
  | park files allow inflightOf => exact hb.park hp ht
  | release files => exact hb.release hp files
  | pick id file dup =>
    simp only [FilePark.step, notePick]
    split
    · exact ⟨hb, hp⟩
    split
    · exact hkeep (hb.countOne id _)
    · exact ⟨hb, hp⟩
  | left id => exact hkeep (hb.left id)

/-- The park's books: they balance, the live groups are the parked ones, a group with nothing in
flight has its floor open, and only a parked group throttles. -/
structure Books (p : FilePark) : Prop extends Balance p where
  parked : Parked p
  floor : ∀ file group, p.groupOf file = some group → p.owned group = 0 →
    ∀ promoted poolIdle, p.defers file promoted poolIdle = false
  throttling : (∀ file group g, p.files.get file = some group → p.groups.get group = some g →
    g.full = false) → p.isThrottling = false

theorem books_run (actions : List Action) : ∀ p : FilePark, Balance p → Parked p → Clean p actions →
    Balance (p.run actions) ∧ Parked (p.run actions) := by
  induction actions with
  | nil => exact fun p hb hp _ => ⟨hb, hp⟩
  | cons a actions ih => exact fun p hb hp hc => ih _ (hb.step hp hc.1).1 (hb.step hp hc.1).2 hc.2

/-- No group outlives its last file by a merge, so the books are right after every run. -/
theorem books_balance (actions : List Action) (hc : Clean new actions) : Books (new.run actions) := by
  obtain ⟨hb, hp⟩ := books_run actions new ⟨nofun, nofun⟩ (fun n => ⟨nofun, nofun⟩) hc
  generalize new.run actions = p at hb hp
  refine ⟨hb, hp, fun file group hg h0 promoted poolIdle => ?_, fun h => ?_⟩
  · have hfull : ((p.groupOf file).bind p.groups.get).any GroupPark.full = false := by
      rw [hg]
      cases hget : p.groups.get group with
      | none => simp [hget]
      | some g =>
        have := hb.inflight group g.inflight (by rw [tally, hget]; rfl)
        simp [hget, GroupPark.full, this.trans h0]
    rw [defers, hfull, Bool.and_false, Bool.false_and]
  · have hnone : (p.groups.entries.any fun x => x.2.full) = false := by
      refine any_eq_false.mpr fun x hx => ?_
      have hget := BTreeMap.get_eq_some.mpr hx
      obtain ⟨file, hfile⟩ := (hp x.1).mp (by rw [hget]; rfl)
      simp [h file x.1 x.2 hfile hget]
    rw [isThrottling, hnone, Bool.and_false]

theorem books_balance_rejoined : Books (new.run [.park [3, 5] 4 (fun _ => []), .pick 1 3 false,
    .release [3], .park [5, 3] 4 fun _ => [1]]) := by
  refine books_balance _ ⟨⟨nofun, nofun⟩, trivial, trivial, ⟨nofun, fun file _ g hg => .inl ?_⟩, trivial⟩
  have hfiles : ∀ x ∈ (((new.step (.park [3, 5] 4 fun _ => [])).step (.pick 1 3 false)).step
    (.release [3])).files.entries, x.2 = 1 := by decide
  exact hfiles _ (BTreeMap.get_eq_some.mp hg)

/-- Two groups merged: the second one is parked nowhere. -/
theorem merged_outlives : ∃ actions, ¬ Books (new.run actions) := by
  refine ⟨[.park [1] 0 fun _ => [], .park [2] 0 fun _ => [7], .park [1, 2] 0 fun _ => []], fun h => ?_⟩
  obtain ⟨file, hfile⟩ := (h.parked 2).mp (by decide)
  have hfiles : ∀ x ∈ (new.run [.park [1] 0 fun _ => [], .park [2] 0 fun _ => [7],
    .park [1, 2] 0 fun _ => []]).files.entries, x.2 = 1 := by decide
  exact nomatch hfiles _ (BTreeMap.get_eq_some.mp hfile)

end FilePark

end NzbFast.Pool
