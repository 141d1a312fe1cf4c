import GitBranchManager.Update.Releases

/-! # The update flow

The controller of the update dialog: a method runs to its next `await`, and what it waits for comes back in any
order with everything else.
-/

namespace GitBranchManager

inductive UpdateStatus
  | idle
  | checking
  | upToDate
  | available
  | downloading
  | verifying
  | readyToInstall
  | installing
  | developmentBuild
  | failed
  deriving DecidableEq, Repr

structure UpdateState where
  status : UpdateStatus
  release : Option LatestRelease := none
  asset : Option ReleaseAsset := none
  downloadedBytes : Nat := 0
  totalBytes : Nat := 0
  downloadedPath : Option Utf16 := none
  errorMessage : Option Utf16 := none
  blockedReason : Option Utf16 := none
  sha256 : Option Utf16 := none
  deriving DecidableEq, Repr

namespace UpdateState

def idle : UpdateState := { status := .idle }

def checking : UpdateState := { status := .checking }

def developmentBuild : UpdateState := { status := .developmentBuild }

def upToDate (release : LatestRelease) : UpdateState := { status := .upToDate, release := some release }

def available (release : LatestRelease) (asset : Option ReleaseAsset) (blockedReason : Option Utf16) : UpdateState :=
  { status := .available, release := some release, asset, blockedReason }

def failed (message : Utf16) : UpdateState := { status := .failed, errorMessage := some message }

def downloading (release : LatestRelease) (asset : ReleaseAsset) (totalBytes : Nat) : UpdateState :=
  { status := .downloading, release := some release, asset := some asset, totalBytes }

def verifying (release : LatestRelease) (asset : ReleaseAsset) (downloadedPath : Utf16) : UpdateState :=
  { status := .verifying, release := some release, asset := some asset, downloadedPath := some downloadedPath }

def readyToInstall (release : LatestRelease) (asset : ReleaseAsset) (downloadedPath sha256 : Utf16) : UpdateState :=
  { status := .readyToInstall, release := some release, asset := some asset, downloadedPath := some downloadedPath
    sha256 := some sha256 }

def installing (release : LatestRelease) (asset : ReleaseAsset) (downloadedPath sha256 : Utf16) : UpdateState :=
  { status := .installing, release := some release, asset := some asset, downloadedPath := some downloadedPath
    sha256 := some sha256 }

def withProgress (state : UpdateState) (downloadedBytes totalBytes : Nat) : UpdateState :=
  { state with downloadedBytes, totalBytes }

def canSelfInstall (state : UpdateState) : Bool := state.asset.isSome && state.blockedReason.isNone

end UpdateState

/-- The running build and its platform; `sha256` is the digest as text. -/
structure Build where
  currentVersion : Option AppVersion
  abi : Abi
  abiName : Utf16
  pathSeparator : Utf16
  sha256 : List UInt8 → Utf16
  toLowerCase : Utf16 → Utf16

namespace UpdateFlow

inductive TransferResult
  | done (sha256 : Utf16)
  | cancelled
  | failed (message : Utf16)
  deriving DecidableEq, Repr

/-- What a download waits for. -/
inductive Phase
  | manifest
  | response (expected : Utf16)
  | body (expected : Utf16) (contentLength : Option Nat) (read : List UInt8)
  | closing (expected : Utf16) (read : List UInt8)
  | returning (result : TransferResult)
  deriving DecidableEq, Repr

structure Transfer where
  release : LatestRelease
  asset : ReleaseAsset
  manifest : ReleaseAsset
  into : Utf16
  phase : Phase
  deriving DecidableEq, Repr

structure Install where
  release : LatestRelease
  asset : ReleaseAsset
  bundlePath : Utf16
  sha256 : Utf16
  into : Utf16
  deriving DecidableEq, Repr

/-- What the updater was launched with: `content` is the bundle as it was read last. -/
structure Launch where
  install : Install
  content : List UInt8
  deriving DecidableEq, Repr

/-- How an install ends once its bundle is found unchanged. -/
inductive StageOutcome
  | unpackFailed (message : Utf16)
  | refused (reason : Utf16)
  | exited
  deriving DecidableEq, Repr

end UpdateFlow

open UpdateFlow in
/-- The controller, the calls of its methods that wait, the manifests that were served, by their addresses, and
the launches so far. A check is by whether it is automatic. -/
structure UpdateFlow where
  state : UpdateState := .idle
  downloadDir : Option Utf16 := none
  cancelRequested : Bool := false
  checkInFlight : Bool := false
  checks : List Bool := []
  settling : Nat := 0
  transfers : List Transfer := []
  installs : List Install := []
  served : List (Utf16 × Utf16) := []
  launches : List Launch := []

namespace UpdateFlow

inductive Event
  | check
  | checkAutomatically
  | answered (i : Nat) (answer : Except Utf16 LatestRelease) (selfInstallBlocker : Option Utf16)
  | settled (skippedVersion : Utf16)
  | download (created : Except Utf16 Utf16)
  | manifestServed (i : Nat) (answer : Except Utf16 Utf16)
  | responded (i : Nat) (answer : Except Utf16 (Option Nat))
  | chunk (i : Nat) (bytes : List UInt8)
  | broke (i : Nat) (message : Utf16)
  | ended (i : Nat)
  | closed (i : Nat)
  | returned (i : Nat)
  | install
  | staged (i : Nat) (content : Except Utf16 (List UInt8)) (outcome : StageOutcome)
  | cancel
  | dismiss

variable (b : Build)

def classifyAvailable (release : LatestRelease) (selfInstallBlocker : Option Utf16) : UpdateState :=
  match selectAssetFor release.assets b.abi with
  | none =>
    .available release none (some (utf16 "This release has no download for " ++ b.abiName ++
      utf16 ". Install it from the release page instead."))
  | some asset =>
    if selectChecksumManifest release.assets = none then
      .available release none (some (utf16 "This release publishes no " ++ kChecksumManifestName ++
        utf16 ", so the download cannot be verified. Install it from the release page instead."))
    else
      match selfInstallBlocker with
      | some blocker => .available release none (some blocker)
      | none => .available release (some asset) none

/-- An automatic check goes on after the check it made. -/
def settleLater (automatic : Bool) (f : UpdateFlow) : UpdateFlow :=
  { f with settling := f.settling + if automatic then 1 else 0 }

def check (automatic : Bool) (f : UpdateFlow) : UpdateFlow :=
  match b.currentVersion with
  | none => settleLater automatic { f with state := .developmentBuild }
  | some _ =>
    if f.checkInFlight then settleLater automatic f
    else { f with checkInFlight := true, state := .checking, checks := f.checks ++ [automatic] }

def checkAutomatically (f : UpdateFlow) : UpdateFlow :=
  if f.state.status ≠ .idle then f else check b true f

def answered (i : Nat) (answer : Except Utf16 LatestRelease) (selfInstallBlocker : Option Utf16) (f : UpdateFlow) :
    UpdateFlow :=
  match f.checks[i]?, b.currentVersion with
  | some automatic, some currentVersion =>
    let state : UpdateState :=
      match answer with
      | .error message => .failed message
      | .ok release =>
        if release.version.compareTo currentVersion ≠ .gt then .upToDate release
        else classifyAvailable b release selfInstallBlocker
    settleLater automatic { f with state, checkInFlight := false, checks := f.checks.eraseIdx i }
  | _, _ => f

def settled (skippedVersion : Utf16) (f : UpdateFlow) : UpdateFlow :=
  if f.settling = 0 then f
  else
    let worthShowing := f.state.status = .available ∧
      f.state.release.map (fun release => release.version.toString) ≠ some skippedVersion
    { f with state := if worthShowing then f.state else .idle, settling := f.settling - 1 }

/-- `created` is the new directory, if one is asked for. -/
def download (created : Except Utf16 Utf16) (f : UpdateFlow) : UpdateFlow :=
  if f.state.status ≠ .available ∨ f.state.canSelfInstall = false then f
  else
    match f.state.release, f.state.asset with
    | some release, some asset =>
      match selectChecksumManifest release.assets with
      | none =>
        { f with state := .failed (utf16 "This release publishes no " ++ kChecksumManifestName ++ utf16 ".") }
      | some manifest =>
        let started := { f with cancelRequested := false, state := .downloading release asset asset.sizeBytes }
        let add (into : Utf16) : UpdateFlow :=
          { started with
            downloadDir := some into
            transfers := f.transfers ++ [{ release, asset, manifest, into, phase := .manifest }] }
        match f.downloadDir, created with
        | some into, _ => add into
        | none, .ok into => add into
        | none, .error message => { started with state := .failed (utf16 "The download failed: " ++ message) }
    | _, _ => f

def setPhase (i : Nat) (transfer : Transfer) (phase : Phase) (f : UpdateFlow) : UpdateFlow :=
  { f with transfers := f.transfers.set i { transfer with phase } }

def manifestServed (i : Nat) (answer : Except Utf16 Utf16) (f : UpdateFlow) : UpdateFlow :=
  match f.transfers[i]? with
  | some transfer =>
    match transfer.phase with
    | .manifest =>
      match answer with
      | .error message => f.setPhase i transfer (.returning (.failed message))
      | .ok text =>
        let f := { f with served := f.served ++ [(transfer.manifest.downloadUrl, text)] }
        match (ChecksumManifest.parseChecksumManifest b.toLowerCase text).get? transfer.asset.name with
        | none =>
          f.setPhase i transfer (.returning (.failed (kChecksumManifestName ++ utf16 " lists no entry for " ++
            transfer.asset.name ++ utf16 ", so the download cannot be verified.")))
        | some expected => f.setPhase i transfer (.response expected)
    | _ => f
  | none => f

def responded (i : Nat) (answer : Except Utf16 (Option Nat)) (f : UpdateFlow) : UpdateFlow :=
  match f.transfers[i]? with
  | some transfer =>
    match transfer.phase with
    | .response expected =>
      match answer with
      | .error message => f.setPhase i transfer (.returning (.failed message))
      | .ok contentLength => f.setPhase i transfer (.body expected contentLength [])
    | _ => f
  | none => f

/-- The flag of the controller is asked, which every download shares. -/
def chunk (i : Nat) (bytes : List UInt8) (f : UpdateFlow) : UpdateFlow :=
  match f.transfers[i]? with
  | some transfer =>
    match transfer.phase with
    | .body expected contentLength read =>
      if f.cancelRequested then f.setPhase i transfer (.returning .cancelled)
      else
        let received := read ++ bytes
        let f := f.setPhase i transfer (.body expected contentLength received)
        if f.state.status = .downloading then
          { f with state := f.state.withProgress received.length (contentLength.getD transfer.asset.sizeBytes) }
        else f
    | _ => f
  | none => f

def broke (i : Nat) (message : Utf16) (f : UpdateFlow) : UpdateFlow :=
  match f.transfers[i]? with
  | some transfer =>
    match transfer.phase with
    | .returning _ => f
    | _ => f.setPhase i transfer (.returning (.failed (utf16 "The download failed: " ++ message)))
  | none => f

def ended (i : Nat) (f : UpdateFlow) : UpdateFlow :=
  match f.transfers[i]? with
  | some transfer =>
    match transfer.phase with
    | .body expected _ read => f.setPhase i transfer (.closing expected read)
    | _ => f
  | none => f

def bundlePath (transfer : Transfer) : Utf16 := transfer.into ++ b.pathSeparator ++ transfer.asset.name

def closed (i : Nat) (f : UpdateFlow) : UpdateFlow :=
  match f.transfers[i]? with
  | some transfer =>
    match transfer.phase with
    | .closing expected read =>
      let f := { f with state := .verifying transfer.release transfer.asset (bundlePath b transfer) }
      if b.sha256 read ≠ expected then
        f.setPhase i transfer (.returning (.failed (utf16 "The downloaded " ++ transfer.asset.name ++
          utf16 " does not match the SHA-256 published in " ++ kChecksumManifestName ++
          utf16 ". It was not installed.")))
      else f.setPhase i transfer (.returning (.done expected))
    | _ => f
  | none => f

def returned (i : Nat) (f : UpdateFlow) : UpdateFlow :=
  match f.transfers[i]? with
  | some transfer =>
    match transfer.phase with
    | .returning result =>
      let state : UpdateState :=
        match result with
        | .done sha256 => .readyToInstall transfer.release transfer.asset (bundlePath b transfer) sha256
        | .cancelled => .available transfer.release (some transfer.asset) none
        | .failed message => .failed message
      { f with state, transfers := f.transfers.eraseIdx i }
    | _ => f
  | none => f

def install (f : UpdateFlow) : UpdateFlow :=
  if f.state.status ≠ .readyToInstall then f
  else
    match f.state.release, f.state.asset, f.state.downloadedPath, f.state.sha256, f.downloadDir with
    | some release, some asset, some bundlePath, some sha256, some into =>
      { f with
        state := .installing release asset bundlePath sha256
        installs := f.installs ++ [{ release, asset, bundlePath, sha256, into }] }
    | _, _, _, _, _ => f

/-- The bundle is read once more before it is used. -/
def staged (i : Nat) (content : Except Utf16 (List UInt8)) (outcome : StageOutcome) (f : UpdateFlow) : UpdateFlow :=
  match f.installs[i]? with
  | some install =>
    let f := { f with installs := f.installs.eraseIdx i }
    match content with
    | .error message =>
      { f with state := .failed (utf16 "The downloaded update is no longer where it was saved (" ++ message ++
        utf16 "). Download it again.") }
    | .ok content =>
      if b.sha256 content ≠ b.toLowerCase install.sha256 then
        { f with state := .failed (utf16 "The downloaded update has changed since it was verified, so it was not installed. Download it again.") }
      else
        match outcome with
        | .unpackFailed message => { f with state := .failed message }
        | .refused reason =>
          { f with state := .failed reason, launches := f.launches ++ [⟨install, content⟩] }
        | .exited => { f with launches := f.launches ++ [⟨install, content⟩] }
  | none => f

def cancel (f : UpdateFlow) : UpdateFlow :=
  let requested := { f with cancelRequested := true }
  if f.state.status ≠ .readyToInstall then requested
  else
    match f.state.release with
    | some release => { requested with downloadDir := none, state := .available release f.state.asset none }
    | none => { requested with downloadDir := none }

def dismiss (f : UpdateFlow) : UpdateFlow :=
  { f with downloadDir := if f.state.status ≠ .installing then none else f.downloadDir, state := .idle }

def step (f : UpdateFlow) : Event → UpdateFlow
  | .check => check b false f
  | .checkAutomatically => checkAutomatically b f
  | .answered i answer selfInstallBlocker => answered b i answer selfInstallBlocker f
  | .settled skippedVersion => settled skippedVersion f
  | .download created => download created f
  | .manifestServed i answer => manifestServed b i answer f
  | .responded i answer => responded i answer f
  | .chunk i bytes => chunk i bytes f
  | .broke i message => broke i message f
  | .ended i => ended i f
  | .closed i => closed b i f
  | .returned i => returned b i f
  | .install => install f
  | .staged i content outcome => staged b i content outcome f
  | .cancel => cancel f
  | .dismiss => dismiss f

def run (events : List Event) : UpdateFlow := events.foldl (step b) {}

/-! ## What may be installed -/

/-- A release newer than this build, and its bundle for this platform. -/
def Offer (release : LatestRelease) (asset : ReleaseAsset) : Prop :=
  selectAssetFor release.assets b.abi = some asset ∧
    ∃ currentVersion, b.currentVersion = some currentVersion ∧ release.version.compareTo currentVersion = .gt

/-- The release's own manifest was served with this digest for the bundle. -/
def Verified (served : List (Utf16 × Utf16)) (release : LatestRelease) (asset : ReleaseAsset) (sha256 : Utf16) :
    Prop :=
  Offer b release asset ∧
    ∃ manifest text, selectChecksumManifest release.assets = some manifest ∧ (manifest.downloadUrl, text) ∈ served ∧
      (ChecksumManifest.parseChecksumManifest b.toLowerCase text).get? asset.name = some sha256

/-- The digest that a download is held to. -/
def Phase.expected : Phase → Option Utf16
  | .response expected | .body expected _ _ | .closing expected _ | .returning (.done expected) => some expected
  | .manifest | .returning _ => none

structure Sound (f : UpdateFlow) : Prop where
  offers : f.state.status = .available ∧ f.state.canSelfInstall = true ∨ f.state.status = .readyToInstall →
    ∀ release ∈ f.state.release, ∀ asset ∈ f.state.asset, Offer b release asset
  ready : f.state.status = .readyToInstall → ∀ release ∈ f.state.release, ∀ asset ∈ f.state.asset,
    ∀ sha256 ∈ f.state.sha256, Verified b f.served release asset sha256
  transfers : ∀ transfer ∈ f.transfers, Offer b transfer.release transfer.asset ∧
    selectChecksumManifest transfer.release.assets = some transfer.manifest ∧
      ∀ sha256 ∈ transfer.phase.expected, Verified b f.served transfer.release transfer.asset sha256
  installs : ∀ install ∈ f.installs, Verified b f.served install.release install.asset install.sha256
  launches : ∀ launch ∈ f.launches,
    Verified b f.served launch.install.release launch.install.asset launch.install.sha256 ∧
      b.sha256 launch.content = b.toLowerCase launch.install.sha256

section

variable {b} {f : UpdateFlow}

theorem Verified.mono {served more : List (Utf16 × Utf16)} {release : LatestRelease} {asset : ReleaseAsset}
    {sha256 : Utf16} (h : Verified b served release asset sha256) (hServed : served ⊆ more) :
    Verified b more release asset sha256 := by
  obtain ⟨hOffer, manifest, text, hManifest, hText, hDigest⟩ := h
  exact ⟨hOffer, manifest, text, hManifest, hServed hText, hDigest⟩

theorem Sound.serve (h : Sound b f) (entry : Utf16 × Utf16) : Sound b { f with served := f.served ++ [entry] } := by
  have hServed : f.served ⊆ f.served ++ [entry] := List.subset_append_left _ _
  constructor
  · exact h.offers
  · intro hStatus release hRelease asset hAsset sha256 hDigest
    exact (h.ready hStatus release hRelease asset hAsset sha256 hDigest).mono hServed
  · intro transfer hMem
    obtain ⟨hOffer, hManifest, hExpected⟩ := h.transfers transfer hMem
    exact ⟨hOffer, hManifest, fun sha256 hDigest => (hExpected sha256 hDigest).mono hServed⟩
  · exact fun install hMem => (h.installs install hMem).mono hServed
  · exact fun launch hMem => ⟨(h.launches launch hMem).1.mono hServed, (h.launches launch hMem).2⟩

/-- A state that offers nothing to install may be shown at any time. -/
theorem Sound.quiet (h : Sound b f) (state : UpdateState) (hAvailable : state.status ≠ .available)
    (hReady : state.status ≠ .readyToInstall) : Sound b { f with state } where
  offers hStatus := hStatus.elim (fun hOffer => absurd hOffer.1 hAvailable) fun hStatus => absurd hStatus hReady
  ready hStatus := absurd hStatus hReady
  transfers := h.transfers
  installs := h.installs
  launches := h.launches

theorem Sound.offer (h : Sound b f) (release : LatestRelease) (asset : Option ReleaseAsset)
    (blockedReason : Option Utf16) (hOffer : ∀ found ∈ asset, Offer b release found) :
    Sound b { f with state := .available release asset blockedReason } where
  offers _ := by
    rintro _ ⟨⟩ found hFound
    exact hOffer found hFound
  ready hStatus := nomatch hStatus
  transfers := h.transfers
  installs := h.installs
  launches := h.launches

theorem Sound.setPhase (h : Sound b f) {i : Nat} {transfer : Transfer} (hAt : f.transfers[i]? = some transfer)
    {phase : Phase}
    (hPhase : ∀ sha256 ∈ phase.expected, Verified b f.served transfer.release transfer.asset sha256) :
    Sound b (f.setPhase i transfer phase) where
  offers := h.offers
  ready := h.ready
  transfers other hMem := by
    obtain hOld | rfl := List.mem_or_eq_of_mem_set hMem
    · exact h.transfers other hOld
    · obtain ⟨hOffer, hManifest, -⟩ := h.transfers transfer (List.mem_of_getElem? hAt)
      exact ⟨hOffer, hManifest, hPhase⟩
  installs := h.installs
  launches := h.launches

theorem Sound.fail (h : Sound b f) {i : Nat} {transfer : Transfer} (hAt : f.transfers[i]? = some transfer)
    (message : Utf16) : Sound b (f.setPhase i transfer (.returning (.failed message))) :=
  h.setPhase hAt fun _ hNone => absurd hNone (Option.not_mem_none _)

theorem Sound.settleLater (h : Sound b f) (automatic : Bool) : Sound b (settleLater automatic f) :=
  ⟨h.offers, h.ready, h.transfers, h.installs, h.launches⟩

theorem Sound.expected (h : Sound b f) {i : Nat} {transfer : Transfer} (hAt : f.transfers[i]? = some transfer)
    {sha256 : Utf16} (hExpected : sha256 ∈ transfer.phase.expected) :
    Verified b f.served transfer.release transfer.asset sha256 :=
  (h.transfers transfer (List.mem_of_getElem? hAt)).2.2 sha256 hExpected

/-! ## One step of the flow -/

theorem Sound.check (h : Sound b f) (automatic : Bool) : Sound b (UpdateFlow.check b automatic f) := by
  rw [UpdateFlow.check]
  split
  · exact (h.quiet .developmentBuild nofun nofun).settleLater automatic
  · split
    · exact h.settleLater automatic
    · have hQuiet := h.quiet .checking nofun nofun
      exact ⟨hQuiet.offers, hQuiet.ready, hQuiet.transfers, hQuiet.installs, hQuiet.launches⟩

theorem Sound.answered (h : Sound b f) (i : Nat) (answer : Except Utf16 LatestRelease)
    (selfInstallBlocker : Option Utf16) : Sound b (UpdateFlow.answered b i answer selfInstallBlocker f) := by
  have hFrame {state : UpdateState} (hState : Sound b { f with state }) (automatic : Bool) :
      Sound b (UpdateFlow.settleLater automatic { f with state, checkInFlight := false, checks := f.checks.eraseIdx i }) :=
    ⟨hState.offers, hState.ready, hState.transfers, hState.installs, hState.launches⟩
  rw [UpdateFlow.answered]
  split
  · next automatic currentVersion hAt hVersion =>
    apply hFrame
    cases answer with
    | error message => exact h.quiet _ nofun nofun
    | ok release =>
      dsimp only
      split
      · exact h.quiet _ nofun nofun
      · next hNewer =>
        rw [not_not] at hNewer
        rw [classifyAvailable]
        split
        · exact h.offer release none _ fun _ hNone => absurd hNone (Option.not_mem_none _)
        · next asset hAsset =>
          split
          · exact h.offer release none _ fun _ hNone => absurd hNone (Option.not_mem_none _)
          · split
            · exact h.offer release none _ fun _ hNone => absurd hNone (Option.not_mem_none _)
            · apply h.offer
              rintro _ ⟨⟩
              exact ⟨hAsset, currentVersion, hVersion, hNewer⟩
  · exact h

theorem Sound.settled (h : Sound b f) (skippedVersion : Utf16) : Sound b (UpdateFlow.settled skippedVersion f) := by
  have hFrame {state : UpdateState} (hState : Sound b { f with state }) :
      Sound b { f with state, settling := f.settling - 1 } :=
    ⟨hState.offers, hState.ready, hState.transfers, hState.installs, hState.launches⟩
  rw [UpdateFlow.settled]
  split
  · exact h
  · apply hFrame
    split
    · exact h
    · exact h.quiet _ nofun nofun

theorem Sound.download (h : Sound b f) (created : Except Utf16 Utf16) : Sound b (UpdateFlow.download created f) := by
  rw [UpdateFlow.download]
  split
  · exact h
  · next hOffered =>
    simp only [not_or, not_not, Bool.not_eq_false] at hOffered
    split
    · next release asset hRelease hAsset =>
      have hOffer : Offer b release asset := h.offers (Or.inl hOffered) release hRelease asset hAsset
      split
      · exact h.quiet _ nofun nofun
      · next manifest hManifest =>
        have hAdd (into : Utf16) : Sound b
            { f with
              cancelRequested := false
              state := .downloading release asset asset.sizeBytes
              downloadDir := some into
              transfers := f.transfers ++ [{ release, asset, manifest, into, phase := .manifest }] } := by
          have hQuiet := h.quiet (.downloading release asset asset.sizeBytes) nofun nofun
          refine ⟨hQuiet.offers, hQuiet.ready, ?_, hQuiet.installs, hQuiet.launches⟩
          refine List.forall_mem_append.mpr ⟨h.transfers, List.forall_mem_singleton.mpr ⟨hOffer, hManifest, ?_⟩⟩
          exact fun _ hNone => absurd hNone (Option.not_mem_none _)
        split
        · exact hAdd _
        · exact hAdd _
        · next message hDir =>
          have hQuiet := h.quiet (.failed (utf16 "The download failed: " ++ message)) nofun nofun
          exact ⟨hQuiet.offers, hQuiet.ready, hQuiet.transfers, hQuiet.installs, hQuiet.launches⟩
    · exact h

theorem Sound.manifestServed (h : Sound b f) (i : Nat) (answer : Except Utf16 Utf16) :
    Sound b (UpdateFlow.manifestServed b i answer f) := by
  rw [UpdateFlow.manifestServed]
  split
  · next transfer hAt =>
    split
    · cases answer with
      | error message => exact h.fail hAt message
      | ok text =>
        have hServed := h.serve (transfer.manifest.downloadUrl, text)
        dsimp only
        split
        · exact hServed.fail hAt _
        · next expected hExpected =>
          apply hServed.setPhase hAt
          rintro _ ⟨⟩
          obtain ⟨hOffer, hManifest, -⟩ := h.transfers transfer (List.mem_of_getElem? hAt)
          exact ⟨hOffer, transfer.manifest, text, hManifest, List.mem_concat_self, hExpected⟩
    · exact h
  · exact h

theorem Sound.responded (h : Sound b f) (i : Nat) (answer : Except Utf16 (Option Nat)) :
    Sound b (UpdateFlow.responded i answer f) := by
  rw [UpdateFlow.responded]
  split
  · next transfer hAt =>
    split
    · next expected hPhase =>
      cases answer with
      | error message => exact h.fail hAt message
      | ok contentLength =>
        apply h.setPhase hAt
        rintro _ ⟨⟩
        exact h.expected hAt (by rw [hPhase]; rfl)
    · exact h
  · exact h

theorem Sound.chunk (h : Sound b f) (i : Nat) (bytes : List UInt8) : Sound b (UpdateFlow.chunk i bytes f) := by
  rw [UpdateFlow.chunk]
  split
  · next transfer hAt =>
    split
    · next expected contentLength read hPhase =>
      split
      · exact h.setPhase hAt fun _ hNone => absurd hNone (Option.not_mem_none _)
      · have hRead : Sound b (f.setPhase i transfer (.body expected contentLength (read ++ bytes))) := by
          apply h.setPhase hAt
          rintro _ ⟨⟩
          exact h.expected hAt (by rw [hPhase]; rfl)
        dsimp only
        split
        · next hDownloading =>
          apply hRead.quiet _
          · intro hOther
            exact nomatch hDownloading.symm.trans hOther
          · intro hOther
            exact nomatch hDownloading.symm.trans hOther
        · exact hRead
    · exact h
  · exact h

theorem Sound.broke (h : Sound b f) (i : Nat) (message : Utf16) : Sound b (UpdateFlow.broke i message f) := by
  rw [UpdateFlow.broke]
  split
  · next transfer hAt =>
    split
    · exact h
    · exact h.fail hAt _
  · exact h

theorem Sound.ended (h : Sound b f) (i : Nat) : Sound b (UpdateFlow.ended i f) := by
  rw [UpdateFlow.ended]
  split
  · next transfer hAt =>
    split
    · next expected contentLength read hPhase =>
      apply h.setPhase hAt
      rintro _ ⟨⟩
      exact h.expected hAt (by rw [hPhase]; rfl)
    · exact h
  · exact h

theorem Sound.closed (h : Sound b f) (i : Nat) : Sound b (UpdateFlow.closed b i f) := by
  rw [UpdateFlow.closed]
  split
  · next transfer hAt =>
    split
    · next expected read hPhase =>
      have hVerifying := h.quiet
        (.verifying transfer.release transfer.asset (bundlePath b transfer)) nofun nofun
      dsimp only
      split
      · exact hVerifying.fail hAt _
      · apply hVerifying.setPhase hAt
        rintro _ ⟨⟩
        exact h.expected hAt (by rw [hPhase]; rfl)
    · exact h
  · exact h

theorem Sound.returned (h : Sound b f) (i : Nat) : Sound b (UpdateFlow.returned b i f) := by
  have hFrame {state : UpdateState} (hState : Sound b { f with state }) :
      Sound b { f with state, transfers := f.transfers.eraseIdx i } :=
    ⟨hState.offers, hState.ready, fun transfer hMem => hState.transfers transfer (List.mem_of_mem_eraseIdx hMem),
      hState.installs, hState.launches⟩
  rw [UpdateFlow.returned]
  split
  · next transfer hAt =>
    obtain ⟨hOffer, -, hExpected⟩ := h.transfers transfer (List.mem_of_getElem? hAt)
    split
    · next result hPhase =>
      apply hFrame
      cases result with
      | done sha256 =>
        have hVerified := hExpected sha256 (by rw [hPhase]; rfl)
        refine ⟨?_, ?_, h.transfers, h.installs, h.launches⟩
        · rintro - _ ⟨⟩ _ ⟨⟩
          exact hOffer
        · rintro - _ ⟨⟩ _ ⟨⟩ _ ⟨⟩
          exact hVerified
      | cancelled =>
        apply h.offer
        rintro _ ⟨⟩
        exact hOffer
      | failed message => exact h.quiet _ nofun nofun
    · exact h
  · exact h

theorem Sound.install (h : Sound b f) : Sound b (UpdateFlow.install f) := by
  rw [UpdateFlow.install]
  split
  · exact h
  · next hReady =>
    rw [not_not] at hReady
    split
    · next release asset bundlePath sha256 into hRelease hAsset hPath hDigest hDir =>
      have hVerified := h.ready hReady release hRelease asset hAsset sha256 hDigest
      have hQuiet := h.quiet (.installing release asset bundlePath sha256) nofun nofun
      refine ⟨hQuiet.offers, hQuiet.ready, hQuiet.transfers, ?_, hQuiet.launches⟩
      exact List.forall_mem_append.mpr ⟨h.installs, List.forall_mem_singleton.mpr hVerified⟩
    · exact h

theorem Sound.staged (h : Sound b f) (i : Nat) (content : Except Utf16 (List UInt8)) (outcome : StageOutcome) :
    Sound b (UpdateFlow.staged b i content outcome f) := by
  rw [UpdateFlow.staged]
  split
  · next install hAt =>
    have hRest : Sound b { f with installs := f.installs.eraseIdx i } :=
      ⟨h.offers, h.ready, h.transfers, fun other hMem => h.installs other (List.mem_of_mem_eraseIdx hMem), h.launches⟩
    cases content with
    | error message => exact hRest.quiet _ nofun nofun
    | ok content =>
      dsimp only
      split
      · exact hRest.quiet _ nofun nofun
      · next hSame =>
        rw [not_not] at hSame
        have hLaunch : ∀ launch ∈ f.launches ++ [⟨install, content⟩],
            Verified b f.served launch.install.release launch.install.asset launch.install.sha256 ∧
              b.sha256 launch.content = b.toLowerCase launch.install.sha256 :=
          List.forall_mem_append.mpr ⟨h.launches, List.forall_mem_singleton.mpr
            ⟨h.installs install (List.mem_of_getElem? hAt), hSame⟩⟩
        cases outcome with
        | unpackFailed message => exact hRest.quiet _ nofun nofun
        | refused reason =>
          have hQuiet := hRest.quiet (.failed reason) nofun nofun
          exact ⟨hQuiet.offers, hQuiet.ready, hQuiet.transfers, hQuiet.installs, hLaunch⟩
        | exited => exact ⟨hRest.offers, hRest.ready, hRest.transfers, hRest.installs, hLaunch⟩
  · exact h

theorem Sound.cancel (h : Sound b f) : Sound b (UpdateFlow.cancel f) := by
  rw [UpdateFlow.cancel]
  split
  · exact ⟨h.offers, h.ready, h.transfers, h.installs, h.launches⟩
  · next hReady =>
    rw [not_not] at hReady
    split
    · next release hRelease =>
      have hOffer := h.offer release f.state.asset none
        fun asset hAsset => h.offers (Or.inr hReady) release hRelease asset hAsset
      exact ⟨hOffer.offers, hOffer.ready, hOffer.transfers, hOffer.installs, hOffer.launches⟩
    · exact ⟨h.offers, h.ready, h.transfers, h.installs, h.launches⟩

theorem Sound.dismiss (h : Sound b f) : Sound b (UpdateFlow.dismiss f) := by
  have hQuiet := h.quiet .idle nofun nofun
  exact ⟨hQuiet.offers, hQuiet.ready, hQuiet.transfers, hQuiet.installs, hQuiet.launches⟩

theorem Sound.step (h : Sound b f) (event : Event) : Sound b (UpdateFlow.step b f event) := by
  cases event with
  | check => exact h.check false
  | checkAutomatically =>
    rw [UpdateFlow.step, UpdateFlow.checkAutomatically]
    split
    · exact h
    · exact h.check true
  | answered i answer selfInstallBlocker => exact h.answered i answer selfInstallBlocker
  | settled skippedVersion => exact h.settled skippedVersion
  | download created => exact h.download created
  | manifestServed i answer => exact h.manifestServed i answer
  | responded i answer => exact h.responded i answer
  | chunk i bytes => exact h.chunk i bytes
  | broke i message => exact h.broke i message
  | ended i => exact h.ended i
  | closed i => exact h.closed i
  | returned i => exact h.returned i
  | install => exact h.install
  | staged i content outcome => exact h.staged i content outcome
  | cancel => exact h.cancel
  | dismiss => exact h.dismiss

variable (b) in
theorem sound_initial : Sound b {} where
  offers hStatus := hStatus.elim (fun hOffer => nomatch hOffer.1) fun hStatus => nomatch hStatus
  ready hStatus := nomatch hStatus
  transfers := fun _ hMem => absurd hMem List.not_mem_nil
  installs := fun _ hMem => absurd hMem List.not_mem_nil
  launches := fun _ hMem => absurd hMem List.not_mem_nil

theorem sound_run (events : List Event) : Sound b (run b events) := by
  induction events using List.reverseRecOn with
  | nil => exact sound_initial b
  | append_singleton events event ih =>
    rw [run, List.foldl_append]
    exact ih.step event

end

/-- Whatever comes back in whatever order, the updater is launched only with a bundle for this platform of a newer
release, whose digest right before is the one that the release's own manifest was served with. -/
theorem launched_verified (events : List Event) : ∀ launch ∈ (run b events).launches,
    Verified b (run b events).served launch.install.release launch.install.asset launch.install.sha256 ∧
      b.sha256 launch.content = b.toLowerCase launch.install.sha256 :=
  (sound_run events).launches

/-- A build that takes every bundle for the same, and the release that it is offered. -/
def oneBuild : Build where
  currentVersion := some { major := 0, minor := 1, patch := 0 }
  abi := .linuxX64
  abiName := utf16 "linux_x64"
  pathSeparator := utf16 "/"
  sha256 _ := List.replicate 64 97
  toLowerCase := id

def oneBundle : ReleaseAsset := { name := utf16 "a-linux-x86_64.tar.gz", downloadUrl := utf16 "u", sizeBytes := 1 }

def oneRelease : LatestRelease where
  version := { major := 0, minor := 2, patch := 0 }
  tagName := utf16 "v0.2.0"
  htmlUrl := []
  notes := []
  assets := [oneBundle, { name := kChecksumManifestName, downloadUrl := utf16 "m", sizeBytes := 1 }]

def oneUpdate : List Event :=
  [.check, .answered 0 (.ok oneRelease) none, .download (.ok (utf16 "d")),
    .manifestServed 0 (.ok (List.replicate 64 97 ++ utf16 "  a-linux-x86_64.tar.gz\n")), .responded 0 (.ok none),
    .chunk 0 [1], .ended 0, .closed 0, .returned 0, .install, .staged 0 (.ok [1]) .exited]

def oneLaunch : Launch where
  install := { release := oneRelease, asset := oneBundle, bundlePath := utf16 "d/a-linux-x86_64.tar.gz"
               sha256 := List.replicate 64 97, into := utf16 "d" }
  content := [1]

theorem launched_verified_oneUpdate :
    Verified oneBuild (run oneBuild oneUpdate).served oneRelease oneBundle (List.replicate 64 97) ∧
      oneBuild.sha256 [1] = oneBuild.toLowerCase (List.replicate 64 97) :=
  launched_verified oneBuild oneUpdate oneLaunch (by decide)

end UpdateFlow

end GitBranchManager
