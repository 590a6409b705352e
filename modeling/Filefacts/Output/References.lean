set_option autoImplicit false

namespace Filefacts.Output

inductive RefLocator where
  | purl (purl : List Char)
  | url (url : List Char)
  | path (path : List Char)
deriving DecidableEq, Repr

inductive RefKind where
  | dependency
  | command
  | urlFetch
  | repository
  | local_
  | undefined
deriving DecidableEq, Repr

inductive UnresolvedReason where
  | manifest
  | excludedMinimum
  | replacement
  | replacementConflict
  | localBoundary
  | localMissing
  | checksumConflict
  | contextBudget
  | vendorMetadata
  | vendorMissing
  | vendorUnlisted
deriving DecidableEq, Repr

inductive Resolution where
  | declaredMinimum
  | replaced
  | vendored
  | unresolved (reason : UnresolvedReason)
deriving DecidableEq, Repr

inductive HashAlgo where
  | sha256
  | sha512
  | sha1
  | goModH1
deriving DecidableEq, Repr

structure PinnedHash where
  algo : HashAlgo
  value : List Char
deriving DecidableEq, Repr

inductive DependencyScope where
  | runtime
  | build
  | development
  | ci
deriving DecidableEq, Repr

structure DependencyContext where
  scope : DependencyScope
  optional : Bool
  hasInstallScript : Bool
  installedPath : Option (List Char)
deriving DecidableEq, Repr

structure Replaced where
  module_ : List Char
  version : Option (List Char)
deriving DecidableEq, Repr

structure Reference where
  locator : RefLocator
  kind : RefKind
  source : List Char
  evidence : List Char
  offset : Option Nat := none
  pinnedHash : Option PinnedHash := none
  contentSha256 : Option (List Char) := none
  context : Option DependencyContext := none
  resolution : Option Resolution := none
  replaces : Option Replaced := none
deriving DecidableEq, Repr

end Filefacts.Output
