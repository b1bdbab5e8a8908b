import TwinView.Template.Basic
import TwinView.Text.Chars

/-!
The vocabulary of HTML: which elements are void, which attributes hold links or are mere flags.
Names are compared without regard to case.
-/

namespace TwinView

open Text

namespace Vocabulary

def voidTags : List String := [
  "area", "base", "basefont", "br", "col", "command", "embed", "frame", "hr", "img", "input",
  "isindex", "keygen", "link", "meta", "param", "source", "track", "wbr"]

def linkTags : List String := [
  "a", "area", "audio", "base", "blockquote", "body", "del", "embed", "form", "frame",
  "head", "html", "iframe", "img", "input", "ins", "link", "object", "q", "script",
  "source", "track", "video"]

def linkAttributes : List String := [
  "action", "background", "cite", "codebase", "data", "href", "longdesc", "manifest",
  "poster", "profile", "src", "usemap"]

def flagAttributes : List String := [
  "async", "autofocus", "autoplay", "checked", "controls", "default", "defer", "disabled",
  "formnovalidate", "hidden", "ismap", "loop", "multiple", "muted", "novalidate", "open",
  "readonly", "required", "reversed", "scoped", "seamless", "selected"]

/-- Properties of `meta` elements whose content is a link, with the attribute that names them. -/
def linkProperties : List (String × String) := [
  ("og:url", "property"), ("og:image", "property"), ("og:image:url", "property"),
  ("og:image:secure_url", "property"), ("og:video", "property"), ("og:video:url", "property"),
  ("og:video:secure_url", "property"), ("og:audio", "property"), ("og:audio:url", "property"),
  ("og:audio:secure_url", "property"), ("image", "itemprop"), ("twitter:image", "name"),
  ("twitter:image:src", "name"), ("twitter:image0", "name"), ("twitter:image1", "name"),
  ("twitter:image2", "name"), ("twitter:image3", "name"), ("twitter:player", "name"),
  ("twitter:player:stream", "name")]

def isVoidTag (tag : String) : Bool := voidTags.contains (lowerAscii tag)

def isLinkTag (tag : String) : Bool := linkTags.contains (lowerAscii tag)

def isLinkAttribute (name : String) : Bool := linkAttributes.contains (lowerAscii name)

def isFlagAttribute (name : String) : Bool := flagAttributes.contains (lowerAscii name)

/-- The attribute that has to name a property for its content to be a link. -/
def linkPropertyKey? (property : String) : Option String := linkProperties.lookup property

end Vocabulary

namespace ElementOf

def hasAttribute (e : Element) (name : String) : Bool := e.attributes.any (·.1 == name)

def attribute? (e : Element) (name : String) : Option Node :=
  (e.attributes.lookup name).join

def isTag (e : Element) (tag : String) : Bool := sameIgnoringCase e.tag tag

def canHaveChildren (e : Element) : Bool := !Vocabulary.isVoidTag e.tag

/-- Whether a `meta` element's property is a link. The first of the attributes that can name the
property has to be the right one for it. -/
def namesLinkProperty (e : Element) : Bool :=
  let keyed := ["name", "property", "itemprop"].findSome? fun key =>
    (e.attribute? key).map fun value => (key, value)
  match keyed with
  | some (key, .text .literal value _) => Vocabulary.linkPropertyKey? value == some key
  | _ => false

def isLinkAttribute (e : Element) (name : String) : Bool :=
  (e.isTag "meta" && sameIgnoringCase name "content" && e.namesLinkProperty) ||
    (Vocabulary.isLinkTag e.tag && Vocabulary.isLinkAttribute name)

end ElementOf

end TwinView
