import MongoSgx.Handles.Operations

/-! # The handle discipline

An object begins with members that hold nothing, and `init` makes it ready. An orderly
life calls the other functions of a ready object only, makes no second client, and
meets only the driver's answers that the code is prepared for. In such a life every
handle is destroyed once: by the function that created it or, for those the members
hold, by the destructor.
-/

namespace MongoSgx

open Bson Interaction Ledger

variable {β : Type}

def Fields.fresh : Fields := ⟨.uninitialized, .uninitialized, .uninitialized⟩

def SetupMethod.Orderly (m : Fields) : SetupMethod → Prop
  | .init _ => True
  | .initIndexes | .ping | .destruct => m = .ready

/-- A second `init` fails on its URL, a client is made of every URI, and the first indexes
are there or fail without a code. -/
def OrderlySetup (m : Fields) : Exchange SetupCall SetupReply → Prop
  | ⟨.uriNewWithError _, .ok ()⟩ => m = .fresh
  | ⟨.clientNewFromUri, made⟩ => made = true
  | ⟨.writeCommandWithOpts command, .error e⟩ => command = usersIndexes → e.code = 0
  | _ => True

/-- The condition under which every handle is destroyed once. -/
def orderlyLife [DecidableEq β] (P : Primitives β) : Conditions β where
  setup m f := f.Orderly m
  setupExchange := OrderlySetup
  invocation m f := m = .ready ∧ f.Orderly
  exchange := Orderly P

/-- What an orderly life leaves of an object. -/
def Reached (o : Option Fields) : Prop := o = none ∨ o = some .fresh ∨ o = some .ready

variable {m : Fields} {α : Type} {Q : Except Stop α → List Resource → Prop}
  {live live' : List Resource}

def Settles (m : Fields) (p : Setup (Option Fields)) : Prop :=
  Keeps (OrderlySetup m) setupEntries
    (fun r live => live = liveHandles (m.after r) ∧ Reached (m.after r)) p m.live

theorem keeps_setup {c : SetupCall} {k : SetupReply c → Setup α}
    (hc : ∀ r, run (setupEntries ⟨c, r⟩) live = some live')
    (hk : ∀ r, OrderlySetup m ⟨c, r⟩ → Keeps (OrderlySetup m) setupEntries Q (k r) live') :
    Keeps (OrderlySetup m) setupEntries Q (.call c k) live :=
  .call (fun r _ => hc r) hk

theorem settles_init (connectionUrl : String) (hm : m = .fresh ∨ m = .ready) :
    Settles m ((SetupMethod.init connectionUrl).prog m) := by
  apply Keeps.call_reply
  rintro (message | ⟨⟩) hr
  · use m.live
    constructor
    · rfl
    · apply keeps_setup fun _ => rfl
      intro _ _
      exact keeps_pure_iff.mpr ⟨rfl, .inr (hm.imp (congrArg some) (congrArg some))⟩
  · obtain rfl : m = .fresh := hr
    refine ⟨[.uri], rfl, ?_⟩
    apply Keeps.call_reply
    rintro _ rfl
    refine ⟨[.client, .uri], rfl, ?_⟩
    apply keeps_setup fun _ => rfl
    intro _ _
    apply keeps_setup fun _ => rfl
    intro _ _
    apply keeps_setup fun _ => rfl
    intro _ _
    apply keeps_setup fun _ => rfl
    intro _ _
    apply keeps_setup fun _ => rfl
    intro _ _
    exact keeps_pure_iff.mpr ⟨rfl, .inr (.inr rfl)⟩

theorem keeps_setupUnless {status : Except BsonError Unit} {k : Setup α}
    (hok : Keeps (OrderlySetup m) setupEntries Q k live)
    (herr : ∀ e, status = .error e → e.code ≠ 0 → Q (.error (.thrown e)) live) :
    Keeps (OrderlySetup m) setupEntries Q ((setupUnless status).bind fun _ => k) live := by
  cases status with
  | ok => exact hok
  | error e =>
    by_cases he : e.code = 0
    · have hpass : setupUnless (.error e) = .pure () := if_neg fun h => h he
      rw [hpass]
      exact hok
    · have hthrow : setupUnless (.error e) = .throw (.thrown e) := if_pos he
      rw [hthrow]
      exact keeps_throw_iff.mpr (herr e rfl he)

/-- A function of a ready object that ends with the handles of the object. -/
def HoldsReady (p : Setup α) : Prop :=
  Keeps (OrderlySetup .ready) setupEntries (fun _ live => live = Fields.ready.live) p
    Fields.ready.live

theorem HoldsReady.settles {p : Setup α} (h : HoldsReady p) :
    Settles .ready (p.bind fun _ => .pure (some .ready)) := by
  apply Keeps.bind
  apply h.mono
  rintro (e | a) live rfl
  · exact ⟨rfl, .inr (.inr rfl)⟩
  · exact keeps_pure_iff.mpr ⟨rfl, .inr (.inr rfl)⟩

theorem holds_initIndexes : HoldsReady initIndexes := by
  apply keeps_setup fun _ => rfl
  intro _ _
  apply keeps_setup fun _ => rfl
  intro _ _
  apply keeps_setup fun _ => rfl
  intro retval1 h1
  apply keeps_setup fun _ => rfl
  intro _ _
  apply keeps_setup fun _ => rfl
  intro _ _
  apply keeps_setup fun _ => rfl
  intro _ _
  apply keeps_setup fun _ => rfl
  intro _ _
  apply keeps_setupUnless
  · apply keeps_setup fun _ => rfl
    intro _ _
    apply keeps_setup fun _ => rfl
    intro retval2 _
    apply keeps_setup fun _ => rfl
    intro _ _
    apply keeps_setup fun _ => rfl
    intro _ _
    apply keeps_setup fun _ => rfl
    intro _ _
    apply keeps_setup fun _ => rfl
    intro _ _
    apply keeps_setup fun _ => rfl
    intro _ _
    apply keeps_setupUnless
    · exact keeps_pure_iff.mpr rfl
    · exact fun _ _ _ => rfl
  · -- the database would be lost here
    rintro e rfl he
    exact absurd (h1 rfl) he

theorem holds_ping : HoldsReady ping := by
  apply keeps_setup fun _ => rfl
  intro _ _
  apply keeps_setup fun _ => rfl
  intro retval _
  apply keeps_setup fun _ => rfl
  intro _ _
  apply keeps_setupUnless
  · exact keeps_pure_iff.mpr rfl
  · exact fun _ _ _ => rfl

theorem settles_destruct : Settles .ready (SetupMethod.destruct.prog .ready) := by
  apply keeps_setup fun _ => rfl
  intro _ _
  apply keeps_setup fun _ => rfl
  intro _ _
  apply keeps_setup fun _ => rfl
  intro _ _
  apply keeps_setup fun _ => rfl
  intro _ _
  exact keeps_pure_iff.mpr ⟨rfl, .inl rfl⟩

theorem keeps_construct (enableTracing : Bool) :
    Keeps (fun _ => True) setupEntries
      (fun r live => live = [] ∧ ∀ m, r = .ok m → m = .fresh) (construct enableTracing) [] := by
  apply Keeps.call (fun _ _ => rfl)
  intro _ _
  cases enableTracing with
  | true => exact keeps_pure_iff.mpr ⟨rfl, fun _ h => (Except.ok.inj h).symm⟩
  | false =>
    apply Keeps.call (fun _ _ => rfl)
    intro _ _
    exact keeps_pure_iff.mpr ⟨rfl, fun _ h => (Except.ok.inj h).symm⟩

theorem SetupMethod.Orderly.settles {f : SetupMethod} (hf : f.Orderly m)
    (hm : Reached (some m)) : Settles m (f.prog m) := by
  cases f with
  | init connectionUrl =>
    apply settles_init
    simpa [Reached] using hm
  | initIndexes =>
    obtain rfl : m = .ready := hf
    exact holds_initIndexes.settles
  | ping =>
    obtain rfl : m = .ready := hf
    exact holds_ping.settles
  | destruct =>
    obtain rfl : m = .ready := hf
    exact settles_destruct

variable [DecidableEq β] {P : Primitives β} {o : Option Fields} {es : List (Entry Resource)}

/-- Between two functions the monitor holds what the members of the object hold. -/
theorem Life.monitored (h : Life P (orderlyLife P) o es) :
    run es [] = some (liveHandles o) ∧ Reached o := by
  induction h with
  | constructed hr =>
    obtain ⟨live, hrun, rfl, hfresh⟩ := (keeps_construct _).of_evals rfl hr
    obtain rfl := hfresh _ rfl
    exact ⟨hrun, .inr (.inl rfl)⟩
  | setup h hf hr ih =>
    obtain ⟨hrun, hm⟩ := ih
    obtain ⟨live, hrun', rfl, hm'⟩ := (hf.settles hm).of_evals hrun hr
    exact ⟨hrun', hm'⟩
  | invoked h hf hr hne ih =>
    obtain ⟨hrun, hm⟩ := ih
    obtain ⟨rfl, hf⟩ := hf
    obtain ⟨live, hrun', hlive⟩ := hf.returns.of_evals hrun hr
    rw [hlive hne] at hrun'
    exact ⟨hrun', hm⟩

theorem Passes.disciplined (h : Passes P (orderlyLife P) es) : Disciplined es := by
  cases h with
  | constructing hs => exact (keeps_construct _).disciplined rfl hs
  | setup h hf hs =>
    obtain ⟨hrun, hm⟩ := h.monitored
    exact (hf.settles hm).disciplined hrun hs
  | invoked h hf hs =>
    obtain ⟨hrun, -⟩ := h.monitored
    obtain ⟨rfl, hf⟩ := hf
    exact hf.returns.disciplined hrun hs

def readyEntries : List (Entry Resource) :=
  [.acquire .uri, .use .uri, .acquire .client, .release .uri, .use .client,
    .use .client, .acquire (.collection .users), .use .client, .acquire (.collection .groups)]

theorem life_fresh (K : Conditions β) : Life P K (some .fresh) [] := by
  have hr : (construct true).Evals (Entering (fun _ => True) setupEntries) [] (.ok .fresh) [] :=
    evals_entering () trivial (.refl _ _)
  exact .constructed hr

theorem life_ready {K : Conditions β} (connectionUrl : String)
    (hf : K.setup .fresh (.init connectionUrl))
    (hx : ∀ x, OrderlySetup .fresh x → K.setupExchange .fresh x) :
    Life P K (some .ready) readyEntries := by
  apply Life.setup (life_fresh K) hf (r := .ok (some .ready))
  refine evals_entering (c := SetupCall.uriNewWithError connectionUrl) (.ok ()) (hx _ rfl) ?_
  refine evals_entering (c := SetupCall.clientNewFromUri) true (hx _ rfl) ?_
  refine evals_entering () (hx _ trivial) ?_
  refine evals_entering () (hx _ trivial) ?_
  refine evals_entering () (hx _ trivial) ?_
  refine evals_entering () (hx _ trivial) ?_
  refine evals_entering () (hx _ trivial) ?_
  exact .refl _ _

def createUserEntries : List (Entry Resource) :=
  [.acquire (.handle .document), .use (.collection .users), .use (.handle .document),
    .release (.handle .document)]

def destructEntries : List (Entry Resource) :=
  [.release (.collection .users), .release (.collection .groups), .release .client]

theorem life_destroyed (P : Primitives β) (userName key : List β) :
    Life P (orderlyLife P) none (readyEntries ++ createUserEntries ++ destructEntries) := by
  have hready : Life P (orderlyLife P) (some .ready) readyEntries :=
    life_ready "mongodb://localhost" trivial fun _ h => h
  have hcreate : ((Invocation.op (.createUser userName key)).prog P).Evals
      (Entering (Orderly P) callEntries) readyEntries (.ok .done)
      (readyEntries ++ createUserEntries) := by
    refine evals_entering (c := Call.randomIv) [] trivial ?_
    refine evals_entering () trivial ?_
    refine evals_entering (.ok ()) trivial ?_
    refine evals_entering () trivial ?_
    exact .refl _ _
  have hcreated := Life.invoked hready (f := .op (.createUser userName key)) ⟨rfl, trivial⟩
    hcreate nofun
  apply Life.setup hcreated (f := .destruct) rfl (r := .ok none)
  refine evals_entering () trivial ?_
  refine evals_entering () trivial ?_
  refine evals_entering () trivial ?_
  refine evals_entering () trivial ?_
  exact .refl _ _

/-- In an orderly life every handle is destroyed once, and nothing else is. -/
theorem orderly_discipline (P : Primitives β) : HandleDiscipline P (orderlyLife P) where
  disciplined _ h := h.disciplined
  settled _ _ h := (balances_of_run h.monitored.1).count

/-- A user is registered and the object destroyed: nothing is left. -/
theorem orderly_discipline_sample :
    Life Primitives.nat (orderlyLife Primitives.nat) none
        (readyEntries ++ createUserEntries ++ destructEntries) ∧
      ∀ r, (readyEntries ++ createUserEntries ++ destructEntries).count (.acquire r) =
        (readyEntries ++ createUserEntries ++ destructEntries).count (.release r) := by
  have hlife := life_destroyed Primitives.nat [1] [2]
  constructor
  · exact hlife
  · intro r
    exact (orderly_discipline Primitives.nat).settled none _ hlife r

/-- A user who is not there: the cursor of the lookup is not destroyed. -/
def lookupEntries : List (Entry Resource) :=
  [.acquire (.handle .query), .acquire (.handle .readPrefs), .acquire (.handle .cursor),
    .release (.handle .query), .release (.handle .readPrefs), .use (.collection .users),
    .use (.handle .cursor)]

theorem life_unknown_user (P : Primitives β) (groupName userName : List β) :
    Life P anyLife (some .ready) (readyEntries ++ lookupEntries) := by
  have hready : Life P anyLife (some .ready) readyEntries :=
    life_ready "mongodb://localhost" trivial fun _ _ => trivial
  have hlookup : ((Invocation.op (.addUserToGroup groupName userName)).prog P).Evals
      (Entering (fun _ => True) callEntries) readyEntries
      (.error (.thrown (bsonError "User does not exist" 539))) (readyEntries ++ lookupEntries) := by
    refine evals_entering (c := Call.create .query) () trivial ?_
    refine evals_entering () trivial ?_
    refine evals_entering () trivial ?_
    refine evals_entering () trivial ?_
    refine evals_entering () trivial ?_
    refine evals_entering (none, findWithOpts .users [] none none) trivial ?_
    exact .refl _ _
  exact .invoked hready (f := .op (.addUserToGroup groupName userName)) trivial hlookup nofun

theorem life_failed_init (P : Primitives β) (connectionUrl : String) :
    Life P anyLife none destructEntries := by
  have hfailed : Life P anyLife (some .fresh) [] := by
    apply Life.setup (life_fresh anyLife) (f := .init connectionUrl) trivial
      (r := .ok (some .fresh))
    refine evals_entering (.error "invalid URI") trivial ?_
    refine evals_entering () trivial ?_
    exact .refl _ _
  apply Life.setup hfailed (f := .destruct) trivial (r := .ok none)
  refine evals_entering () trivial ?_
  refine evals_entering () trivial ?_
  refine evals_entering () trivial ?_
  refine evals_entering () trivial ?_
  exact .refl _ _

/-- Whatever is destroyed after a failed `init` was never created, and a user who is not found
leaves a cursor behind. -/
theorem disorderly_life :
    Life Primitives.nat anyLife none destructEntries ∧ ¬ Disciplined destructEntries ∧
      Life Primitives.nat anyLife (some .ready) (readyEntries ++ lookupEntries) ∧
      ¬ HandleDiscipline Primitives.nat anyLife := by
  have hfailed := life_failed_init Primitives.nat "mongo"
  have hundisciplined : ¬ Disciplined destructEntries := by decide
  refine ⟨hfailed, hundisciplined, life_unknown_user Primitives.nat [0] [1], fun h => ?_⟩
  -- the client is destroyed once, and was never created
  have hclient := h.settled none destructEntries hfailed .client
  exact absurd hclient (by decide)

end MongoSgx
