import HaoosLfs.Menu.ChoiceTree
import HaoosLfs.Menu.ExprStr
import HaoosLfs.Menu.SavedOrder
import HaoosLfs.Menu.Ranges
import HaoosLfs.Live.MountRoot
import HaoosLfs.Sources.UrlsLst
import HaoosLfs.Install.UncompressName
import HaoosLfs.Blfs.Pkgdir
import HaoosLfs.Book.CommentStrip
import HaoosLfs.Sources.Basename
import HaoosLfs.Book.Sysdnet
import HaoosLfs.Book.Placeholders
import HaoosLfs.XmlParse.CommandText
import HaoosLfs.Build.Regenerate
import HaoosLfs.Build.Classify
import HaoosLfs.Blfs.Defined
import HaoosLfs.Blfs.Prereqs
import HaoosLfs.Blfs.Tidy
import HaoosLfs.Install.InstallFile
import HaoosLfs.Install.CmdFile
import HaoosLfs.Install.Extract
import HaoosLfs.Sources.Urls
import HaoosLfs.Sources.Background
import HaoosLfs.XmlParse.Packages
import HaoosLfs.XmlParse.NullLinks
import HaoosLfs.XmlParse.BlfsUrls
import HaoosLfs.Install.PackageUrl
import HaoosLfs.Book.WrapInstall
import HaoosLfs.Book.PkgDest
import HaoosLfs.Book.CommentTest
import HaoosLfs.Book.MakeWords
import HaoosLfs.Book.MixedContent
import HaoosLfs.Book.Sect2
