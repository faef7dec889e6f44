import BoatRudder.WebServer.ProxyRead
import BoatRudder.WebServer.OversizedHead
import BoatRudder.WebServer.RecordedName
import BoatRudder.WebServer.HeaderIsolation
import BoatRudder.Utils.MarkdownSafe
import BoatRudder.WebServer.RateBursts
import BoatRudder.WapGateway.RateAllow
import BoatRudder.WebServer.Connections
import BoatRudder.WebServer.MultipartRoundTrip
import BoatRudder.Db.SearchLossless
import BoatRudder.Db.ReplyApproves
import BoatRudder.Db.BlockedCommenter
import BoatRudder.Db.NewestLink
import BoatRudder.Extensions.ForwardAgrees
import BoatRudder.WapGateway.WmlReparse
import BoatRudder.Modules.UsedCaptcha
import BoatRudder.Modules.BrowserDetectionAdmin
import BoatRudder.Utils.SentPage
import BoatRudder.WebServer.DirectoryRename
import BoatRudder.Utils.MailQueue
import BoatRudder.Db.LastAdmin
import BoatRudder.Db.DefaultLanguage
import BoatRudder.WebServer.BlockStays
import BoatRudder.Db.CommentLimits
import BoatRudder.Db.NamesKept
import BoatRudder.Db.ShortLinks
import BoatRudder.Db.Usernames
import BoatRudder.WebServer.ExtensionRedirect
import BoatRudder.WebServer.ContentFrame
import BoatRudder.WebServer.ProxyGrammar
import BoatRudder.WebServer.StaticFileServer
import BoatRudder.WebServer.RequestLine
import BoatRudder.WapGateway.PackingLoop
import BoatRudder.Modules.VisitReport
import BoatRudder.WebServer.FormReading
import BoatRudder.Utils.TierOrder
import BoatRudder.Utils.CaptchaImage
import BoatRudder.Utils.QrGif
import BoatRudder.HtmlBuilder.PageLayout
import BoatRudder.Utils.CssCode
import BoatRudder.Extensions.FixedManifest
import BoatRudder.Modules.ParagraphWellFormed
import BoatRudder.Modules.TableArt
import BoatRudder.Modules.CommentFields
import BoatRudder.WebServer.MediaUpload
import BoatRudder.Modules.UpdatesAdmin
import BoatRudder.Utils.CookieReaders
import BoatRudder.Utils.MailMessage
import BoatRudder.Db.ExcerptWindow
import BoatRudder.WapGateway.UintvarWords
import BoatRudder.Db.EntryDates
import BoatRudder.Db.BlockOrder
import BoatRudder.WebServer.BackgroundFields
import BoatRudder.Modules.ImageAddresses
import BoatRudder.WebServer.GalleryPage
import BoatRudder.Modules.ReturnAddress
import BoatRudder.WebServer.CategorySpellings
import BoatRudder.WapGateway.ServedPages
import BoatRudder.WebServer.Sessions
