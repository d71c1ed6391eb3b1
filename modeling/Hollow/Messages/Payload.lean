import Hollow.Crdt.Text
import Hollow.Lib.Delimited

/-! The texts that authors sign: messages, deletions and reactions. Every field before the last is
free of colons, so a signature cannot be moved to another message. -/

namespace Hollow.Messages

open Hollow.Crdt

/-- A message or a deletion, in a channel or between two peers. -/
inductive MsgType where
  | ch
  | dm
  | chDelete
  | dmDelete
deriving DecidableEq

def MsgType.asStr : MsgType → String
  | ch => "ch"
  | dm => "dm"
  | chDelete => "ch-delete"
  | dmDelete => "dm-delete"

/-- The structured fields a signature binds. An absent one counts as an empty one. -/
structure SignedExtras where
  mid : Option String := none
  replyTo : Option String := none
  fileId : Option String := none
  orderUs : Option Int := none
  lpDigest : Option String := none
  album : Option String := none
deriving DecidableEq

/-- 1 to 64 letters, digits, hyphens and underscores. -/
def isSignedIdShape (s : String) : Bool :=
  1 ≤ s.utf8ByteSize && s.utf8ByteSize ≤ 64 &&
    s.toList.all fun c => c.isAlphanum || c == '-' || c == '_'

def isLpDigestShape (s : String) : Bool :=
  s.utf8ByteSize == 64 && s.toList.all isLowercaseHexDigit

/-- A hyphenated UUID. -/
def isAlbumIdShape (s : String) : Bool :=
  s.utf8ByteSize == 36 && s.toList.zipIdx.all fun (c, i) =>
    if i = 8 ∨ i = 13 ∨ i = 18 ∨ i = 23 then c == '-' else isHexDigit c

namespace SignedExtras

def albumId (extras : SignedExtras) : Option String := extras.album.filter (· ≠ "")

/-- Whether every slot before the text has its shape. -/
def wellFormed (extras : SignedExtras) : Bool :=
  let idOk := fun v : Option String => v.all fun s => s = "" || isSignedIdShape s
  idOk extras.mid && idOk extras.replyTo && idOk extras.fileId &&
    (extras.lpDigest.all fun d => d = "" || isLpDigestShape d) && extras.albumId.all isAlbumIdShape

def read (extras : SignedExtras) : String × String × String × Option Int × String × Option String :=
  (extras.mid.getD "", extras.replyTo.getD "", extras.fileId.getD "", extras.orderUs,
    extras.lpDigest.getD "", extras.albumId)

end SignedExtras

def messageSigningPayloadV2 (msgType context sender : String) (ts : Int) (extras : SignedExtras)
    (text : String) : String :=
  let mid := extras.mid.getD ""
  let replyTo := extras.replyTo.getD ""
  let fileId := extras.fileId.getD ""
  let orderUs := (extras.orderUs.map toString).getD ""
  let lp := extras.lpDigest.getD ""
  match extras.albumId with
  | some album =>
    "hollow-msg3:" ++ msgType ++ ":" ++ context ++ ":" ++ sender ++ ":" ++ toString ts ++ ":" ++
      mid ++ ":" ++ replyTo ++ ":" ++ fileId ++ ":" ++ orderUs ++ ":" ++ lp ++ ":" ++
      album ++ ":" ++ text
  | none =>
    "hollow-msg2:" ++ msgType ++ ":" ++ context ++ ":" ++ sender ++ ":" ++ toString ts ++ ":" ++
      mid ++ ":" ++ replyTo ++ ":" ++ fileId ++ ":" ++ orderUs ++ ":" ++ lp ++ ":" ++ text

inductive ReactionKind where
  | reaction
  | unreaction
deriving DecidableEq

def ReactionKind.asStr : ReactionKind → String
  | reaction => "reaction"
  | unreaction => "unreaction"

def reactionPayload (kind : ReactionKind) (mid emoji : String) (ts : Int) : String :=
  kind.asStr ++ ":" ++ mid ++ ":" ++ emoji ++ ":" ++ toString ts

/-- A signed message: a context is a peer for direct messages, a server and a channel of it
otherwise. -/
structure Signable where
  msgType : MsgType
  context : String
  sender : String
  ts : Int
  extras : SignedExtras
  text : String

namespace Signable

def payload (m : Signable) : String :=
  messageSigningPayloadV2 m.msgType.asStr m.context m.sender m.ts m.extras m.text

def ContextOk (msgType : MsgType) (context : String) : Prop :=
  match msgType with
  | .dm | .dmDelete => ':' ∉ context.toList
  | .ch | .chDelete => ∃ serverId channelId, validServerId serverId ∧ validChannelId channelId ∧
      context = serverId ++ ":" ++ channelId

structure WellFormed (m : Signable) : Prop where
  context : ContextOk m.msgType m.context
  sender : ':' ∉ m.sender.toList
  extras : m.extras.wellFormed

end Signable

variable {s : String}

theorem colon_not_mem_of_all {p : Char → Bool} (h : s.toList.all p) (hp : p ':' = false) :
    ':' ∉ s.toList := by
  intro hmem
  have := List.all_eq_true.1 h ':' hmem
  rw [hp] at this
  cases this

theorem colon_not_mem_of_isSignedIdShape (h : isSignedIdShape s) : ':' ∉ s.toList := by
  rw [isSignedIdShape, Bool.and_eq_true] at h
  exact colon_not_mem_of_all h.2 (by decide)

theorem colon_not_mem_of_isLpDigestShape (h : isLpDigestShape s) : ':' ∉ s.toList := by
  rw [isLpDigestShape, Bool.and_eq_true] at h
  exact colon_not_mem_of_all h.2 (by decide)

theorem colon_not_mem_of_isAlbumIdShape (h : isAlbumIdShape s) : ':' ∉ s.toList := by
  rw [isAlbumIdShape, Bool.and_eq_true] at h
  intro hmem
  obtain ⟨i, hi, hget⟩ := List.mem_iff_getElem.1 hmem
  have hpair : (':', i) ∈ s.toList.zipIdx := by
    rw [List.mk_mem_zipIdx_iff_getElem?, List.getElem?_eq_getElem hi, hget]
  have hall := List.all_eq_true.1 h.2 _ hpair
  have hhex : isHexDigit ':' = false := by decide
  simp [hhex] at hall

theorem colon_not_mem_natRepr (n : Nat) : ':' ∉ n.repr.toList := by
  intro hmem
  rw [Nat.toList_repr] at hmem
  have hdigit := Nat.isDigit_of_mem_toDigits (by decide) (by decide) hmem
  revert hdigit
  decide

theorem colon_not_mem_toString (n : Int) : ':' ∉ (toString n).toList := by
  rw [Int.toString_eq_repr]
  cases n with
  | ofNat n => exact colon_not_mem_natRepr n
  | negSucc n =>
    rw [Int.repr, String.toList_append, List.mem_append, not_or]
    exact ⟨by decide, colon_not_mem_natRepr _⟩

theorem colon_not_mem_getD {v : Option String} {p : String → Bool}
    (h : v.all fun s => s = "" || p s) (hp : ∀ s, p s → ':' ∉ s.toList) :
    ':' ∉ (v.getD "").toList := by
  cases v with
  | none => decide
  | some s =>
    simp only [Option.all_some, Bool.or_eq_true, decide_eq_true_eq] at h
    rcases h with rfl | h
    · decide
    · exact hp s h

theorem colon_not_mem_asStr (msgType : MsgType) : ':' ∉ msgType.asStr.toList := by
  cases msgType <;> decide

theorem MsgType.asStr_inj {a b : MsgType} (h : a.asStr.toList = b.asStr.toList) : a = b := by
  cases a <;> cases b <;> first | rfl | exact absurd h (by decide)

theorem ReactionKind.asStr_inj {a b : ReactionKind} (h : a.asStr.toList = b.asStr.toList) :
    a = b := by
  cases a <;> cases b <;> first | rfl | exact absurd h (by decide)

theorem toString_inj {a b : Int} (h : (toString a).toList = (toString b).toList) : a = b :=
  Int.repr_inj.1 (String.toList_inj.1 h)

namespace SignedExtras

def orderText (extras : SignedExtras) : String := (extras.orderUs.map toString).getD ""

variable {a b : SignedExtras}

theorem orderText_inj (h : a.orderText.toList = b.orderText.toList) : a.orderUs = b.orderUs := by
  have hne (n : Int) : (toString n).toList ≠ [] := by
    rw [Int.toString_eq_repr]
    cases n with
    | ofNat n => exact Nat.toList_repr ▸ Nat.toDigits_ne_nil
    | negSucc n =>
      rw [Int.repr, String.toList_append]
      exact List.append_ne_nil_of_left_ne_nil (by decide) _
  rw [orderText, orderText] at h
  cases ha : a.orderUs with
  | none =>
    cases hb : b.orderUs with
    | none => rfl
    | some n =>
      rw [ha, hb] at h
      exact absurd h.symm (hne n)
  | some m =>
    cases hb : b.orderUs with
    | none =>
      rw [ha, hb] at h
      exact absurd h (hne m)
    | some n =>
      rw [ha, hb] at h
      exact congrArg some (toString_inj h)

/-- The prefix names the layout, the album adds a field to it. -/
def version (extras : SignedExtras) : List Char :=
  if extras.albumId.isSome then "hollow-msg3".toList else "hollow-msg2".toList

def albumFields (extras : SignedExtras) : List (List Char) :=
  extras.albumId.toList.map String.toList

def fields (extras : SignedExtras) : List (List Char) :=
  [(extras.mid.getD "").toList, (extras.replyTo.getD "").toList, (extras.fileId.getD "").toList,
    extras.orderText.toList, (extras.lpDigest.getD "").toList]

theorem colon_not_mem_version (extras : SignedExtras) : ':' ∉ extras.version := by
  rw [version]
  split <;> decide

theorem length_albumFields_of_version (h : a.version = b.version) :
    a.albumFields.length = b.albumFields.length := by
  rw [version, version] at h
  rw [albumFields, albumFields]
  cases ha : a.albumId <;> cases hb : b.albumId <;> simp_all

theorem albumId_of_albumFields (h : a.albumFields = b.albumFields) : a.albumId = b.albumId := by
  have hlist : a.albumId.toList = b.albumId.toList :=
    List.map_injective_iff.2 (fun _ _ => String.toList_inj.1) h
  rw [← Option.head?_toList (o := a.albumId), hlist, Option.head?_toList]

theorem colon_not_mem_albumFields {extras : SignedExtras} (h : extras.wellFormed) :
    ∀ field ∈ extras.albumFields, ':' ∉ field := by
  simp only [wellFormed, Bool.and_eq_true] at h
  intro field hfield
  obtain ⟨album, halbum, rfl⟩ := List.mem_map.1 hfield
  rw [Option.mem_toList] at halbum
  rw [halbum] at h
  exact colon_not_mem_of_isAlbumIdShape h.2

theorem colon_not_mem_fields {extras : SignedExtras} (h : extras.wellFormed) :
    ∀ field ∈ extras.fields, ':' ∉ field := by
  simp only [wellFormed, Bool.and_eq_true] at h
  obtain ⟨⟨⟨⟨hmid, hreply⟩, hfile⟩, hlp⟩, -⟩ := h
  have horder : ':' ∉ extras.orderText.toList := by
    rw [orderText]
    cases extras.orderUs with
    | none => decide
    | some n => exact colon_not_mem_toString n
  intro field hfield
  simp only [fields, List.mem_cons, List.not_mem_nil, or_false] at hfield
  rcases hfield with rfl | rfl | rfl | rfl | rfl
  · exact colon_not_mem_getD hmid fun s => colon_not_mem_of_isSignedIdShape
  · exact colon_not_mem_getD hreply fun s => colon_not_mem_of_isSignedIdShape
  · exact colon_not_mem_getD hfile fun s => colon_not_mem_of_isSignedIdShape
  · exact horder
  · exact colon_not_mem_getD hlp fun s => colon_not_mem_of_isLpDigestShape

theorem read_of_fields (hfields : a.fields = b.fields) (halbum : a.albumFields = b.albumFields) :
    a.read = b.read := by
  simp only [fields, List.cons.injEq, and_true] at hfields
  obtain ⟨hmid, hreply, hfile, horder, hlp⟩ := hfields
  rw [read, read, String.toList_inj.1 hmid, String.toList_inj.1 hreply, String.toList_inj.1 hfile,
    orderText_inj horder, String.toList_inj.1 hlp, albumId_of_albumFields halbum]

end SignedExtras

open SignedExtras

namespace Signable

open Delimited

def contextWidth : MsgType → Nat
  | .dm | .dmDelete => 1
  | .ch | .chDelete => 2

/-- A context that passes the check splits into a fixed number of fields. -/
theorem ContextOk.fields {msgType : MsgType} {context : String} (h : ContextOk msgType context) :
    ∃ fields : List (List Char), fields.length = contextWidth msgType ∧
      (∀ field ∈ fields, ':' ∉ field) ∧
      ∀ rest, context.toList ++ ':' :: rest = encode ':' fields rest := by
  have hpeer (hcolon : ':' ∉ context.toList) : ∃ fields : List (List Char), fields.length = 1 ∧
      (∀ field ∈ fields, ':' ∉ field) ∧
      ∀ rest, context.toList ++ ':' :: rest = encode ':' fields rest :=
    ⟨[context.toList], rfl, by simpa using hcolon, fun _ => rfl⟩
  have hchannel (hparts : ∃ serverId channelId, validServerId serverId ∧ validChannelId channelId ∧
      context = serverId ++ ":" ++ channelId) : ∃ fields : List (List Char), fields.length = 2 ∧
      (∀ field ∈ fields, ':' ∉ field) ∧
      ∀ rest, context.toList ++ ':' :: rest = encode ':' fields rest := by
    obtain ⟨serverId, channelId, hserver, hchannel, rfl⟩ := hparts
    have hs : ':' ∉ serverId.toList := by
      simp only [validServerId, isGenesisId, Bool.or_eq_true, Bool.and_eq_true] at hserver
      rcases hserver with hserver | hserver
      · exact colon_not_mem_of_all hserver.2 (by decide)
      · exact colon_not_mem_of_all hserver.2 (by decide)
    have hc : ':' ∉ channelId.toList := by
      rw [validChannelId, Bool.and_eq_true] at hchannel
      exact colon_not_mem_of_all hchannel.2 (by decide)
    refine ⟨[serverId.toList, channelId.toList], rfl, by simp [hs, hc], fun rest => ?_⟩
    simp
  cases msgType with
  | ch => exact hchannel h
  | dm => exact hpeer h
  | chDelete => exact hchannel h
  | dmDelete => exact hpeer h

theorem toList_payload (m : Signable) : m.payload.toList =
    encode ':' [m.extras.version, m.msgType.asStr.toList] (m.context.toList ++ ':' ::
      encode ':' ([m.sender.toList, (toString m.ts).toList] ++ m.extras.fields)
        (encode ':' m.extras.albumFields m.text.toList)) := by
  rw [payload, messageSigningPayloadV2]
  cases halbum : m.extras.albumId with
  | none =>
    simp [version, SignedExtras.fields, albumFields,
      orderText, halbum]
  | some album =>
    simp [version, SignedExtras.fields, albumFields,
      orderText, halbum]

/-- Well-formed messages of one payload agree in all that the signature is to cover. -/
theorem eq_of_payload {m n : Signable} (hm : m.WellFormed) (hn : n.WellFormed)
    (h : m.payload = n.payload) :
    m.msgType = n.msgType ∧ m.context = n.context ∧ m.sender = n.sender ∧ m.ts = n.ts ∧
      m.extras.read = n.extras.read ∧ m.text = n.text := by
  have heq := congrArg String.toList h
  rw [toList_payload, toList_payload] at heq
  have hhead (m : Signable) :
      ∀ field ∈ [m.extras.version, m.msgType.asStr.toList], ':' ∉ field := by
    intro field hfield
    rcases List.mem_pair.1 hfield with rfl | rfl
    · exact m.extras.colon_not_mem_version
    · exact colon_not_mem_asStr m.msgType
  obtain ⟨hfirst, heq⟩ := encode_inj (by rfl) (hhead m) (hhead n) heq
  obtain ⟨hversion, htype⟩ : m.extras.version = n.extras.version ∧
      m.msgType.asStr.toList = n.msgType.asStr.toList := by simpa using hfirst
  have htype := MsgType.asStr_inj htype
  obtain ⟨mcontext, hmlength, hmcolon, hmcontext⟩ := hm.context.fields
  obtain ⟨ncontext, hnlength, hncolon, hncontext⟩ := hn.context.fields
  rw [hmcontext, hncontext] at heq
  obtain ⟨rfl, hbody⟩ := encode_inj (by rw [hmlength, hnlength, htype]) hmcolon hncolon heq
  have hcontext : m.context.toList = n.context.toList :=
    List.append_cancel_right ((hmcontext []).trans (hncontext []).symm)
  have hmiddle {m : Signable} (hm : m.WellFormed) :
      ∀ field ∈ [m.sender.toList, (toString m.ts).toList] ++ m.extras.fields, ':' ∉ field := by
    intro field hfield
    rcases List.mem_append.1 hfield with hfield | hfield
    · rcases List.mem_pair.1 hfield with rfl | rfl
      · exact hm.sender
      · exact colon_not_mem_toString m.ts
    · exact colon_not_mem_fields hm.extras field hfield
  obtain ⟨hfields, hrest⟩ := encode_inj (by rfl) (hmiddle hm) (hmiddle hn) hbody
  obtain ⟨hfields, hextras⟩ := List.append_inj hfields rfl
  obtain ⟨hsender, hts⟩ : m.sender.toList = n.sender.toList ∧
      (toString m.ts).toList = (toString n.ts).toList := by simpa using hfields
  obtain ⟨halbum, htext⟩ := encode_inj (length_albumFields_of_version hversion)
    (colon_not_mem_albumFields hm.extras)
    (colon_not_mem_albumFields hn.extras) hrest
  exact ⟨htype, String.toList_inj.1 hcontext, String.toList_inj.1 hsender, toString_inj hts,
    read_of_fields hextras halbum, String.toList_inj.1 htext⟩

end Signable

theorem colon_not_mem_kind (kind : ReactionKind) : ':' ∉ kind.asStr.toList := by
  cases kind <;> decide

theorem toList_reactionPayload (kind : ReactionKind) (mid emoji : String) (ts : Int) :
    (reactionPayload kind mid emoji ts).toList =
      kind.asStr.toList ++ ':' ::
        (mid.toList ++ ':' :: (emoji.toList ++ ':' :: (toString ts).toList)) := by
  simp [reactionPayload]

theorem Signable.payload_ne_reactionPayload (m : Signable) (kind : ReactionKind)
    (mid emoji : String) (ts : Int) : m.payload ≠ reactionPayload kind mid emoji ts := by
  intro h
  have heq := congrArg String.toList h
  rw [toList_payload, toList_reactionPayload] at heq
  obtain ⟨hversion, -⟩ := Delimited.field_inj m.extras.colon_not_mem_version
    (colon_not_mem_kind kind) heq
  rw [version] at hversion
  revert hversion
  cases kind <;> split <;> decide

theorem eq_of_reactionPayload {kind kind' : ReactionKind} {mid mid' emoji emoji' : String}
    {ts ts' : Int} (hmid : isSignedIdShape mid) (hmid' : isSignedIdShape mid')
    (h : reactionPayload kind mid emoji ts = reactionPayload kind' mid' emoji' ts') :
    kind = kind' ∧ mid = mid' ∧ emoji = emoji' ∧ ts = ts' := by
  have heq := congrArg String.toList h
  rw [toList_reactionPayload, toList_reactionPayload] at heq
  obtain ⟨hkind, heq⟩ :=
    Delimited.field_inj (colon_not_mem_kind kind) (colon_not_mem_kind kind') heq
  obtain ⟨hmids, heq⟩ := Delimited.field_inj (colon_not_mem_of_isSignedIdShape hmid)
    (colon_not_mem_of_isSignedIdShape hmid') heq
  obtain ⟨hemoji, hts⟩ := Delimited.last_inj (colon_not_mem_toString ts)
    (colon_not_mem_toString ts') heq
  exact ⟨ReactionKind.asStr_inj hkind, String.toList_inj.1 hmids, String.toList_inj.1 hemoji,
    toString_inj hts⟩

/-- A signed payload is the payload of one message or of one reaction. -/
theorem payloads_unambiguous :
    (∀ m n : Signable, m.WellFormed → n.WellFormed → m.payload = n.payload →
      m.msgType = n.msgType ∧ m.context = n.context ∧ m.sender = n.sender ∧ m.ts = n.ts ∧
        m.extras.read = n.extras.read ∧ m.text = n.text) ∧
    (∀ m : Signable, m.WellFormed → ∀ kind mid emoji ts,
      m.payload ≠ reactionPayload kind mid emoji ts) ∧
    (∀ kind kind' mid mid' emoji emoji' ts ts', isSignedIdShape mid → isSignedIdShape mid' →
      reactionPayload kind mid emoji ts = reactionPayload kind' mid' emoji' ts' →
      kind = kind' ∧ mid = mid' ∧ emoji = emoji' ∧ ts = ts') :=
  ⟨fun _ _ hm hn h => Signable.eq_of_payload hm hn h,
    fun m _ kind mid emoji ts => m.payload_ne_reactionPayload kind mid emoji ts,
    fun _ _ _ _ _ _ _ _ hmid hmid' h => eq_of_reactionPayload hmid hmid' h⟩

def sampleDeletion (album : Option String) : Signable where
  msgType := .dmDelete
  context := "bob"
  sender := "alice"
  ts := -1
  extras := { mid := some "m-1", album }
  text := "a:b"

theorem payloads_unambiguous_deletion :
    (sampleDeletion none).payload = (sampleDeletion (some "")).payload ∧
      (sampleDeletion none).extras.read = (sampleDeletion (some "")).extras.read ∧
      (sampleDeletion none).payload ≠ reactionPayload .reaction "m-1" "a:b" (-1) ∧
      reactionPayload .reaction "m-1" "a:1" 2 ≠ reactionPayload .reaction "m-1" "a" 12 := by
  have hwell (album : Option String) (h : album = none ∨ album = some "") :
      (sampleDeletion album).WellFormed := by
    have hcontext : ':' ∉ "bob".toList := by decide
    have hsender : ':' ∉ "alice".toList := by decide
    refine ⟨hcontext, hsender, ?_⟩
    rcases h with rfl | rfl <;> decide
  have heq : (sampleDeletion none).payload = (sampleDeletion (some "")).payload := by decide
  refine ⟨heq, (payloads_unambiguous.1 _ _ (hwell _ (.inl rfl)) (hwell _ (.inr rfl)) heq).2.2.2.2.1,
    payloads_unambiguous.2.1 _ (hwell _ (.inl rfl)) _ _ _ _, fun h => ?_⟩
  have hsame := payloads_unambiguous.2.2 _ _ _ _ _ _ _ _ (by decide) (by decide) h
  exact absurd hsame.2.2.1 (by decide)

end Hollow.Messages
