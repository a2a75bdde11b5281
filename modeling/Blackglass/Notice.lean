import Blackglass.Schema
import Blackglass.Lib.Json

/-!
# Push notices

The message that tells a client about one revision, and its size on the wire.  A push
is admitted on an upper bound of that size, computed before the database has chosen
the revision's `uid` and `ts`.
-/

namespace Blackglass

open Json

def maxEventBytes : Nat := 32 * 1024

/-- `model.rs`, `PushNotice`. -/
structure PushNotice where
  op : String
  path : String
  relatedpath : Option String
  extension : String
  hash : String
  ctime : Int
  mtime : Int
  folder : Bool
  deleted : Bool
  size : Int
  uid : Int
  device : String
  user : Int
  ts : Int
deriving DecidableEq

/-- `impl From<Revision> for PushNotice`. -/
def Revision.toNotice (r : Revision) : PushNotice :=
  { op := "push", path := r.path, relatedpath := r.relatedpath, extension := r.extension,
    hash := r.hash, ctime := r.ctime, mtime := r.mtime, folder := r.folder, deleted := r.deleted,
    size := r.size, uid := r.uid, device := r.device, user := r.userId, ts := r.ts }

namespace PushNotice

def members (n : PushNotice) : List (String × String) :=
  [("op", encodeString n.op), ("path", encodeString n.path),
    ("relatedpath", encodeOption n.relatedpath), ("extension", encodeString n.extension),
    ("hash", encodeString n.hash), ("ctime", encodeInt n.ctime), ("mtime", encodeInt n.mtime),
    ("folder", encodeBool n.folder), ("deleted", encodeBool n.deleted), ("size", encodeInt n.size),
    ("uid", encodeInt n.uid), ("device", encodeString n.device), ("user", encodeInt n.user),
    ("ts", encodeInt n.ts)]

/-- `serde_json::to_string`. -/
def text (n : PushNotice) : String := encodeObject n.members

end PushNotice

/-- The notice that `serialized_notice_size` measures: the numbers the database has not
chosen yet are as long as they can be. -/
def NewRevision.widestNotice (r : NewRevision) : PushNotice :=
  { op := "push", path := r.path, relatedpath := r.relatedpath, extension := r.extension,
    hash := r.hash, ctime := r.ctime, mtime := r.mtime, folder := r.folder, deleted := r.deleted,
    size := r.size, uid := 9223372036854775807, device := r.device, user := r.userId,
    ts := 9223372036854775807 }

def serializedNoticeSize (r : NewRevision) : Nat := r.widestNotice.text.utf8ByteSize

/-- Whatever `uid` and `ts` a revision gets, its notice is not larger than the one its
admission was measured by. -/
theorem text_le_serializedNoticeSize (r : NewRevision) {uid ts : Int} (huid₀ : 0 ≤ uid)
    (huid₁ : uid ≤ 9223372036854775807) (hts₀ : 0 ≤ ts) (hts₁ : ts ≤ 9223372036854775807) :
    ({ r.widestNotice with uid := uid, ts := ts } : PushNotice).text.utf8ByteSize ≤
      serializedNoticeSize r := by
  have hwide : ∀ n : Int, 0 ≤ n → n ≤ 9223372036854775807 →
      (encodeInt n).utf8ByteSize ≤ (encodeInt 9223372036854775807).utf8ByteSize := by
    intro n h₀ h₁
    have hmax : (encodeInt 9223372036854775807).utf8ByteSize = 19 := by decide
    rw [hmax]
    exact encodeInt_utf8ByteSize_le (by decide) h₀ (by omega)
  refine encodeObject_utf8ByteSize_le ?_
  simp only [PushNotice.members, NewRevision.widestNotice, List.forall₂_cons, le_refl, and_self,
    true_and, List.Forall₂.nil, and_true]
  exact ⟨hwide uid huid₀ huid₁, hwide ts hts₀ hts₁⟩

end Blackglass
